import Termwise.Proofs.Eval.Enduring

/-!
# Termwise.Proofs.Eval.Generations

Every change of meaning moves the generation.  What a host can do with a kernel is an
`Operation`: define, bind, make and remove, evaluate, match and rewrite.  Each of them is
a move (`Operation.moves_apply`), however it ends, and so is every run of them.

So between two points of a run with one generation nothing has changed its meaning, and
what was stamped before a change is not taken for evaluated after it
(`Kernel.sameMeaning_of_generation_eq`).
-/

namespace Termwise

/-! ## operations -/

/-- What a host can do with a kernel. -/
inductive Operation where
  /-- Define something in a context, remove a definition, or set attributes or a value. -/
  | call (fuel : Nat) (c : ContextId) (definition : DefinitionCall)
  /-- Open the rules of a symbol and change the list for a use, as by an insertion or by
  clearing. -/
  | changeRules (s : Symbol) (mode : AccessMode) (cache : RuleCache) (f : RuleList → RuleList)
  | register (s : Symbol) (usage : CodeUsage) (code : Native)
  | registerApprox (s : Symbol) (code : ApproxNative)
  | setLocal (c : ContextId) (s : Symbol) (value : Term)
  | unsetLocal (c : ContextId) (s : Symbol)
  | addLocalRule (c : ContextId) (s : Symbol) (rule : Rule)
  | intern (name : String)
  | remove (s : Symbol)
  | newRoot
  | spawnChild (c : ContextId)
  | evaluate (fuel : Nat) (c : ContextId) (t : Term)
  /-- Run native code, of any kind. -/
  | run (fuel : Nat) (c : ContextId) (code : Native) (t : Term)
  | find (fuel : Nat) (c : ContextId) (list : RuleList) (subject : Term)
  | matching (fuel : Nat) (c : ContextId) (subject pattern : Term)
  | rewrite (fuel : Nat) (c : ContextId) (lhs rhs subject : Term)
  | replace (fuel : Nat) (c : ContextId) (everywhere : Bool) (rules : List Rule) (t : Term)
  | approximate (fuel : Nat) (c : ContextId) (t : Term)
  | format (fuel : Nat) (c : ContextId) (t : Term)

namespace Operation

/-- The kernel after an operation, also if it was refused or failed. -/
def apply (k : Kernel) : Operation → Kernel
  | call fuel c definition => ((definition.perform (.ofFuel fuel) c).run k).2
  | changeRules s mode cache f =>
    ((Termwise.changeRules s mode cache fun list => (f list, ())).run k).2
  | register s usage code => k.register s usage code
  | registerApprox s code => k.registerApprox s code
  | setLocal c s value => k.setLocal c s value
  | unsetLocal c s => (k.unsetLocal c s).2
  | addLocalRule c s rule => k.addLocalRule c s rule
  | intern name => (k.intern name).2
  | remove s => (k.remove s).2
  | newRoot => k.newRoot.2
  | spawnChild c => (k.spawnChild c).2
  | evaluate fuel c t => ((evaluateWith fuel c t).run k).2
  | run fuel c code t => (((Evaluator.ofFuel fuel).run c code t).run k).2
  | find fuel c list subject => (((Evaluator.ofFuel fuel).find? c list subject).run k).2
  | matching fuel c subject pattern => (((Evaluator.ofFuel fuel).match? c subject pattern).run k).2
  | rewrite fuel c lhs rhs subject => (((Evaluator.ofFuel fuel).rewrite c lhs rhs subject).run k).2
  | replace fuel c everywhere rules t =>
    (((Evaluator.ofFuel fuel).replace c everywhere rules t).run k).2
  | approximate fuel c t => (((Evaluator.ofFuel fuel).approximate c t).run k).2
  | format fuel c t => (((Evaluator.ofFuel fuel).format c t).run k).2

end Operation

/-! ## moves -/

theorem enduring_moves : Enduring Kernel.Moves where
  refl := .refl
  trans := .trans
  minor h := h.moves
  stamp c t h := Kernel.moves_stamp h c t
  spawnChild := Kernel.moves_spawnChild
  enter := Kernel.moves_enter
  leave := Kernel.moves_leave
  putRules cache list _ := Kernel.moves_putRules _ _ cache list
  limit k c := ⟨fun args => (k.moves_setLimitReported c true).trans
    (Kernel.moves_addMessage _ .general "reclim" args), k.moves_setLimitReported c false⟩
  lifts h := ((Kernel.moves_setDeadline _ _ _).trans h).trans (Kernel.moves_setDeadline _ _ _)

/-- Every operation is a move. -/
theorem Operation.moves_apply (k : Kernel) (operation : Operation) :
    k.Moves (operation.apply k) := by
  cases operation with
  | call fuel c definition => exact enduring_moves.perform k fuel c definition
  | changeRules s mode cache f => exact enduring_moves.changeRules k s mode cache _
  | register s usage code => exact k.moves_register s usage code
  | registerApprox s code => exact k.moves_registerApprox s code
  | setLocal c s value => exact k.moves_setLocal c s value
  | unsetLocal c s => exact k.moves_unsetLocal c s
  | addLocalRule c s rule => exact k.moves_addLocalRule c s rule
  | intern name => exact k.moves_intern name
  | remove s => exact k.moves_remove s
  | newRoot => exact k.moves_newRoot
  | spawnChild c => exact k.moves_spawnChild c
  | evaluate fuel c t => exact enduring_moves.evaluateWith k fuel c t
  | run fuel c code t => exact enduring_moves.run k fuel c code t
  | find fuel c list subject => exact enduring_moves.find? k fuel c list subject
  | matching fuel c subject pattern => exact enduring_moves.match? k fuel c subject pattern
  | rewrite fuel c lhs rhs subject => exact enduring_moves.rewrite k fuel c lhs rhs subject
  | replace fuel c everywhere rules t =>
      exact enduring_moves.replace k fuel c everywhere rules t
  | approximate fuel c t => exact enduring_moves.approximate k fuel c t
  | format fuel c t => exact enduring_moves.format k fuel c t

namespace Kernel

/-- Every run of operations is a move. -/
theorem moves_foldl (operations : List Operation) (k : Kernel) :
    k.Moves (operations.foldl Operation.apply k) := by
  induction operations generalizing k with
  | nil => exact .refl k
  | cons operation operations ih => exact (operation.moves_apply k).trans (ih _)

/-- Between any two points of a run of operations on a new kernel, the generation does not go back;
when it is the same at both, every symbol and every context means the same at both; and when
something means something else at the later one, no node stamped at the earlier one counts as
evaluated there by its stamp. -/
theorem sameMeaning_of_generation_eq (config : Config) (before after : List Operation) :
    let k := before.foldl Operation.apply (.new config)
    let k' := after.foldl Operation.apply k
    k.generation ≤ k'.generation ∧
      (k'.generation = k.generation → k.SameMeaning k') ∧
        (¬k.SameMeaning k' → ∀ t g, k.isEvaluated t g = true → g < k'.generation) := by
  intro k k'
  have hmoves : k.Moves k' := moves_foldl after k
  have hdated : k.Dated := (moves_foldl before (.new config)).dated (dated_new config)
  refine ⟨hmoves.le, fun heq => (hmoves.unchanged heq).sameMeaning, fun hchanged t g ht => ?_⟩
  exact hmoves.lt_of_isEvaluated hdated ht hchanged

end Kernel

end Termwise
