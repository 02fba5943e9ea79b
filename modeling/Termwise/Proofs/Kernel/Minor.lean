import Termwise.Proofs.Kernel.Exact
import Termwise.Proofs.Kernel.Generation

/-!
# Termwise.Proofs.Kernel.Minor

Changes of a kernel that are no evaluation (`Kernel.Minor`).  Symbols and depths stay as
`Kernel.Stays` says and the generation moves as `Kernel.Moves` says; besides

1. the clock is never turned back;
2. contexts keep their ancestors and deadlines, and it stays as it was whether the
   recursion limit has been reported in them;
3. that the recursion limit was hit is not reported;
4. no approximation is added.
-/

namespace Termwise

/-- What in a context only time limits and the recursion limit change. -/
def Context.lasting (x : Context) : List ContextId × Nat × Bool :=
  (x.ancestors, x.deadline, x.limitReported)

namespace Kernel

/-- Number of reports that the recursion limit was hit. -/
def limitReports (k : Kernel) : Nat := k.messages.countP fun m => m.tag == "reclim"

/-- A change that is no evaluation, sets no deadline and has nothing to do with the recursion
limit. -/
structure Minor (k k' : Kernel) : Prop where
  stays : k.Stays k'
  moves : k.Moves k'
  clock : k.clock ≤ k'.clock
  lasting : ∀ c, (k'.context c).lasting = (k.context c).lasting
  limitReports : k'.limitReports = k.limitReports
  staysExact : k.StaysExact k'

variable {k k' k'' : Kernel}

theorem Minor.refl (k : Kernel) : k.Minor k :=
  ⟨.refl k, .refl k, Nat.le_refl _, fun _ => rfl, rfl, .refl k⟩

theorem Minor.trans (h : k.Minor k') (h' : k'.Minor k'') : k.Minor k'' where
  stays := h.stays.trans h'.stays
  moves := h.moves.trans h'.moves
  clock := Nat.le_trans h.clock h'.clock
  lasting c := (h'.lasting c).trans (h.lasting c)
  limitReports := h'.limitReports.trans h.limitReports
  staysExact := h.staysExact.trans h'.staysExact

theorem Minor.ancestors_eq (h : k.Minor k') (c : ContextId) :
    (k'.context c).ancestors = (k.context c).ancestors := congrArg Prod.fst (h.lasting c)

theorem Minor.deadline_eq (h : k.Minor k') (c : ContextId) :
    (k'.context c).deadline = (k.context c).deadline := congrArg (·.2.1) (h.lasting c)

theorem Minor.limitReported_eq (h : k.Minor k') (c : ContextId) :
    (k'.context c).limitReported = (k.context c).limitReported := congrArg (·.2.2) (h.lasting c)

/-! ## contexts and messages -/

/-- A change that leaves contexts and messages alone. -/
theorem Minor.of_eq (hstays : k.Stays k') (hmoves : k.Moves k')
    (hcontexts : k'.contexts = k.contexts) (hmessages : k'.messages = k.messages)
    (hclock : k'.clock = k.clock) (hexact : k.StaysExact k') : k.Minor k' where
  stays := hstays
  moves := hmoves
  clock := Nat.le_of_eq hclock.symm
  lasting c := by rw [context, hcontexts, context]
  limitReports := by rw [Kernel.limitReports, hmessages, Kernel.limitReports]
  staysExact := hexact

/-- A change of a context that leaves its depth and its definitions alone. -/
theorem minor_updateContext (k : Kernel) (c : ContextId) {f : Context → Context}
    (hdepth : ∀ x, (f x).depth = x.depth) (hlocals : ∀ x, (f x).locals = x.locals)
    (hlocalRules : ∀ x, (f x).localRules = x.localRules)
    (hlasting : ∀ x, (f x).lasting = x.lasting) : k.Minor (k.updateContext c f) where
  stays := k.stays_updateContext c hdepth
  moves := k.moves_updateContext c hlocals hlocalRules fun x => congrArg Prod.fst (hlasting x)
  clock := Nat.le_refl _
  lasting c' := context_updateContext_of_eq k c c' hlasting
  limitReports := rfl
  staysExact := .of_symbols_eq rfl

theorem minor_share (k : Kernel) (t : Term) : k.Minor (k.share t).2 :=
  .of_eq (k.stays_share t) (k.moves_share t) rfl rfl rfl (.of_symbols_eq rfl)

theorem minor_elapse (k : Kernel) (nanos : Nat) : k.Minor (k.elapse nanos) where
  stays := k.stays_elapse nanos
  moves := k.moves_elapse nanos
  clock := Nat.le_add_right _ _
  lasting _ := rfl
  limitReports := rfl
  staysExact := .of_symbols_eq rfl

theorem minor_addMessage (k : Kernel) (s : Symbol) {tag : String} (htag : tag ≠ "reclim")
    (args : List Term) : k.Minor (k.addMessage s tag args) where
  stays := k.stays_addMessage s tag args
  moves := k.moves_addMessage s tag args
  clock := Nat.le_refl _
  lasting _ := rfl
  limitReports := List.countP_cons_of_neg (by simpa using htag)
  staysExact := .of_symbols_eq rfl

theorem minor_recordException (k : Kernel) (c : ContextId) (value : Term) :
    k.Minor (k.recordException c value) :=
  k.minor_updateContext c (fun _ => rfl) (fun _ => rfl) (fun _ => rfl) fun _ => rfl

theorem minor_catchException (k : Kernel) (c : ContextId) : k.Minor (k.catchException c).2 :=
  k.minor_updateContext c (fun _ => rfl) (fun _ => rfl) (fun _ => rfl) fun _ => rfl

theorem minor_collect (k : Kernel) (owner : ContextId) (id : Nat) (value : Term) :
    k.Minor (k.collect owner id value) :=
  k.minor_updateContext owner (fun _ => rfl) (fun _ => rfl) (fun _ => rfl) fun _ => rfl

theorem minor_gatherBegin (k : Kernel) (c : ContextId) (pattern : Term) :
    k.Minor (k.gatherBegin c pattern) :=
  (k.minor_updateContext c
    (f := fun x => { x with gathers := ⟨k.frames, pattern, []⟩ :: x.gathers })
    (fun _ => rfl) (fun _ => rfl) (fun _ => rfl) fun _ => rfl).trans
      (.of_eq (.of_eq rfl rfl rfl) (.of_eq rfl rfl rfl rfl) rfl rfl rfl
        (.of_symbols_eq rfl))

theorem minor_gatherEnd (k : Kernel) (c : ContextId) : k.Minor (k.gatherEnd c).2 := by
  unfold gatherEnd
  split
  · exact k.minor_updateContext c (fun _ => rfl) (fun _ => rfl) (fun _ => rfl) fun _ => rfl
  · exact .refl k

theorem minor_requestAbort (k : Kernel) : k.Minor { k with aborting := true } :=
  .of_eq (.of_eq rfl rfl rfl) (.of_eq rfl rfl rfl rfl) rfl rfl rfl (.of_symbols_eq rfl)

/-! ## definitions -/

theorem minor_setLocal (k : Kernel) (c : ContextId) (s : Symbol) (value : Term) :
    k.Minor (k.setLocal c s value) where
  stays := k.stays_setLocal c s value
  moves := k.moves_setLocal c s value
  clock := Nat.le_refl _
  lasting c' := context_updateContext_of_eq k c c' fun _ => rfl
  limitReports := rfl
  staysExact := .of_symbols_eq rfl

theorem minor_unsetLocal (k : Kernel) (c : ContextId) (s : Symbol) :
    k.Minor (k.unsetLocal c s).2 := by
  refine ⟨k.stays_unsetLocal c s, k.moves_unsetLocal c s, ?_, fun c' => ?_, ?_, ?_⟩
  all_goals
    unfold unsetLocal
    split
  · exact Nat.le_refl _
  · exact Nat.le_refl _
  · exact context_updateContext_of_eq k c c' fun _ => rfl
  · rfl
  · rfl
  · rfl
  · exact .of_symbols_eq rfl
  · exact .refl k

theorem minor_setAttributes {s : Symbol} {attrs : Attributes}
    (h : k.setAttributes s attrs = .ok k') : k.Minor k' := by
  have hstays := stays_setAttributes h
  have hmoves := moves_setAttributes h
  have hexact := staysExact_setAttributes h
  rw [setAttributes_eq_ok h] at hstays hmoves hexact ⊢
  exact .of_eq hstays hmoves rfl rfl rfl hexact

theorem minor_setValue {s : Symbol} {value : Option Term} (h : k.setValue s value = .ok k') :
    k.Minor k' := by
  have hstays := stays_setValue h
  have hmoves := moves_setValue h
  have hexact := staysExact_setValue h
  rw [setValue_eq_ok h] at hstays hmoves hexact ⊢
  exact .of_eq hstays hmoves rfl rfl rfl hexact

theorem minor_openRules {s : Symbol} {mode : AccessMode} {opened : Option RuleStore}
    (h : k.openRules s mode = .ok (opened, k')) : k.Minor k' := by
  have hstays := (stays_openRules h).1
  have hmoves := moves_openRules h
  have hexact := (sameReadings_openRules h).staysExact
  rcases openRules_eq_ok h with ⟨-, rfl⟩ | ⟨-, -, rfl⟩
  · exact .refl k'
  · exact .of_eq hstays hmoves rfl rfl rfl hexact

/-- Another list in the place of one of a symbol that is not gone, plain and without approximations
as the kernel is. -/
theorem minor_putRules (k : Kernel) {s : Symbol} (hs : ¬k.Gone s) (cache : RuleCache)
    {list : RuleList} (hlist : k.Plain → list.All cache.Plain)
    (hempty : k.Exact → cache = .approx → list.isEmpty = true) :
    k.Minor (k.putRules s cache list).bump :=
  .of_eq ((k.stays_putRules hs cache hlist).trans (stays_bump _)) (k.moves_putRules s cache list)
    rfl rfl rfl (k.staysExact_putRules s hempty)

theorem minor_remove (k : Kernel) (s : Symbol) : k.Minor (k.remove s).2 := by
  refine .of_eq (k.stays_remove s) (k.moves_remove s) ?_ ?_ ?_ (k.staysExact_remove s)
  all_goals
    unfold remove
    split <;> rfl

end Kernel

end Termwise
