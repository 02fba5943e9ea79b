import Termwise.Eval.Evaluate
import Termwise.Proofs.Rule.Sorting

/-!
# Termwise.Proofs.Rule.Survivors

What a rule list is like after a history of insertions, removals and lookups during
which the attributes of symbols stand still (`RuleList.shape_of_history`).

The history alone says which rules are left and in which order they came
(`RuleList.survivors`): a rule with a test never gives way, a rule without one does to a
new one with the same left-hand side, which takes its place.  The list holds the
constant rules among them by left-hand side; the others are stably sorted by their walks.
Every operation does to the list what it does to the survivors (`Holds.apply`).
-/

namespace Termwise

namespace RuleList

variable {attrs : Symbol → Attributes} {l : RuleList} {r : Rule} {rs log : List Rule}

/-! ## histories -/

/-- What can be done with a rule list. -/
inductive Operation where
  /-- Add a rule. -/
  | insert (lhs rhs : Term) (kind : RuleKind)
  /-- Remove the rules with a left-hand side. -/
  | remove (lhs : Term)
  /-- Remove all rules. -/
  | clear
  /-- Look up a subject, in some structure epoch. -/
  | find (epoch : Nat) (subject : Term)

/-- The list after an operation. -/
def apply (attrs : Symbol → Attributes) (l : RuleList) : Operation → RuleList
  | .insert lhs rhs kind => l.insert (.make attrs lhs rhs kind)
  | .remove lhs => (l.remove attrs lhs).1
  | .clear => l.clear
  | .find epoch subject => l.ready attrs epoch subject

/-- The list after a history. -/
def run (attrs : Symbol → Attributes) (ops : List Operation) : RuleList :=
  ops.foldl (apply attrs) .empty

/-- The rules that are left after an operation, in the order of first insertion. -/
def survive (attrs : Symbol → Attributes) (log : List Rule) : Operation → List Rule
  | .insert lhs rhs kind => supersede (.make attrs lhs rhs kind) log
  | .remove lhs => log.filter fun r => !r.hasLhs attrs lhs
  | .clear => []
  | .find _ _ => log

/-- The rules that are left after a history, in the order of first insertion. -/
def survivors (attrs : Symbol → Attributes) (ops : List Operation) : List Rule :=
  ops.foldl (survive attrs) []

/-- What an operation makes of the right-hand side that is kept for a constant. -/
def keepLast (attrs : Symbol → Attributes) (t : Term) (held : Option Term) : Operation → Option Term
  | .insert lhs rhs kind =>
    if (Rule.make attrs lhs rhs kind).literal && lhs == t then some rhs else held
  | .remove lhs => if lhs == t then none else held
  | .clear => none
  | .find _ _ => held

/-- The right-hand side that was inserted last for a constant, unless it was removed since. -/
def lastInserted (attrs : Symbol → Attributes) (ops : List Operation) (t : Term) : Option Term :=
  ops.foldl (keepLast attrs t) none

theorem Built.apply (h : l.Built attrs) (op : Operation) : (l.apply attrs op).Built attrs := by
  cases op with
  | insert lhs rhs kind => exact h.insert lhs rhs kind
  | remove lhs => exact h.remove lhs
  | clear => exact h.clear
  | find epoch subject => exact h.lookup epoch subject

/-- The list holds the rules of a log: the constant ones, and the others sorted by their walks. -/
structure Holds (log : List Rule) (l : RuleList) : Prop where
  literals : l.literals.Perm (log.filter (·.literal))
  patterns : l.patterns = bySpecificity (log.filter (!·.literal))

theorem Holds.perm (h : Holds log l) : l.rules.Perm log := by
  rw [rules, h.patterns]
  exact (h.literals.append (bySpecificity_perm _)).trans (List.filter_append_perm _ _)

/-- No two rules give way to one rule. -/
theorem Holds.pairwise_givesWay (h : Holds log l) (hl : l.Tidy) (r : Rule) :
    log.Pairwise fun s u => s.givesWay r = true → u.givesWay r = false := by
  refine ((h.perm.pairwise_iff fun hsu => hsu.symm).mp hl.apart_rules).imp fun {s u} hsu hs => ?_
  rw [Bool.eq_false_iff]
  intro hu
  obtain ⟨-, hsc, hsr⟩ := Rule.givesWay_iff.mp hs
  obtain ⟨-, huc, hur⟩ := Rule.givesWay_iff.mp hu
  exact Bool.eq_false_iff.mp (hsu hsc huc) (Rule.sameLhs_trans hsr (Rule.sameLhs_symm hur))

theorem Holds.insert (h : Holds log l) (hl : l.Fresh attrs) (hr : r.Reads attrs) :
    Holds (supersede r log) (l.insert r) := by
  have hreads : ∀ s ∈ log, s.Reads attrs := fun s hs => hl.reads s (h.perm.mem_iff.mpr hs)
  have hsort : ∀ s ∈ log, s.givesWay r = true → s.literal = r.literal := fun s hs =>
    Rule.literal_eq_of_givesWay ⟨attrs, hreads s hs⟩ ⟨attrs, hr⟩
  have hliterals := filter_supersede (p := (·.literal)) hsort
  have hpatterns := filter_supersede (p := (!·.literal)) fun s hs hway => by rw [hsort s hs hway]
  cases hliteral : r.literal with
  | true =>
      rw [insert_literal l hliteral]
      refine ⟨?_, h.patterns.trans (by rw [hpatterns, hliteral]; rfl)⟩
      rw [hliterals, hliteral, if_pos rfl]
      have hone := (h.pairwise_givesWay hl.tidy r).filter (·.literal)
      refine (insertLiteral_perm hl.tidy.ascending).trans (.trans ?_ (supersede_perm hone).symm)
      have hway : ∀ s ∈ log.filter (·.literal), (!(s.lhs == r.lhs)) = !s.givesWay r := by
        intro s hs
        obtain ⟨hs, hsl⟩ := List.mem_filter.mp hs
        rw [Rule.givesWay_of_literal (hreads s hs) hr hsl hliteral]
      rw [← List.filter_congr hway]
      exact (h.literals.filter _).cons r
  | false =>
      rw [insert_pattern l hliteral]
      refine ⟨h.literals.trans (by rw [hliterals, hliteral]; rfl), ?_⟩
      rw [hpatterns, hliteral, Bool.not_false, if_pos rfl, bySpecificity_supersede, ← h.patterns]

theorem Holds.remove (h : Holds log l) (hl : l.Fresh attrs) (lhs : Term) :
    Holds (log.filter fun r => !r.hasLhs attrs lhs) (l.remove attrs lhs).1 := by
  obtain ⟨hliterals, hpatterns⟩ := rules_remove l attrs lhs
  have hlhs : ∀ r ∈ l.literals, (!(r.lhs == lhs)) = !r.hasLhs attrs lhs := fun r hr => by
    rw [Rule.hasLhs_of_literal (hl.reads r (List.mem_append_left _ hr)) (hl.tidy.literal r hr)]
  refine ⟨?_, ?_⟩
  · rw [hliterals, filter_comm, List.filter_congr hlhs]
    exact h.literals.filter _
  · rw [hpatterns, filter_comm, bySpecificity_filter, ← h.patterns]
    rfl

/-- What one operation keeps. -/
theorem Holds.apply (h : Holds log l) (hl : l.Fresh attrs) (op : Operation) :
    Holds (survive attrs log op) (l.apply attrs op) := by
  cases op with
  | insert lhs rhs kind => exact h.insert hl (Rule.reads_make attrs lhs rhs kind)
  | remove lhs => exact h.remove hl lhs
  | clear => exact ⟨.refl _, (List.mergeSort_nil).symm⟩
  | find epoch subject =>
      obtain ⟨hliterals, hpatterns⟩ := l.rules_ready attrs epoch subject
      exact ⟨hliterals ▸ h.literals, hpatterns.trans h.patterns⟩

theorem constant?_remove (l : RuleList) (attrs : Symbol → Attributes) (lhs t : Term) :
    (l.remove attrs lhs).1.constant? t = if lhs == t then none else l.constant? t := by
  rw [constant?, (rules_remove l attrs lhs).1, List.find?_filter]
  split
  · rename_i hlhs
    rw [Option.map_eq_none_iff, List.find?_eq_none]
    intro r _ hr
    simp only [Bool.not_eq_true', decide_eq_true_eq] at hr
    rw [Term.beq_trans hr.2 (by rwa [Term.beq_symm])] at hr
    exact Bool.noConfusion hr.1
  · rename_i hlhs
    have hkept : (fun r : Rule => decide ((!(r.lhs == lhs)) = true ∧ (r.lhs == t) = true)) =
        (·.lhs == t) := by
      funext r
      rw [Bool.eq_iff_iff, decide_eq_true_eq, Bool.not_eq_true', and_iff_right_iff_imp,
        Bool.eq_false_iff]
      exact fun ht hr => hlhs (Term.beq_trans (by rwa [Term.beq_symm]) ht)
    rw [hkept, constant?]

/-- What an operation makes of the constant rules. -/
theorem constant?_apply (l : RuleList) (attrs : Symbol → Attributes) (t : Term) (op : Operation) :
    (l.apply attrs op).constant? t = keepLast attrs t (l.constant? t) op := by
  cases op with
  | insert lhs rhs kind =>
      rw [apply, keepLast]
      cases hliteral : (Rule.make attrs lhs rhs kind).literal with
      | false => rw [insert_pattern l hliteral]; rfl
      | true =>
          rw [insert_literal l hliteral, constant?, find?_insertLiteral, Bool.true_and, constant?]
          change Option.map Rule.rhs (if lhs == t then _ else _) = _
          split <;> rfl
  | remove lhs => exact constant?_remove l attrs lhs t
  | clear => rfl
  | find epoch subject => rw [apply, keepLast, constant?, (l.rules_ready attrs epoch subject).1]; rfl

/-- What the operations of a history keep, from an empty list on. -/
theorem holds_run (attrs : Symbol → Attributes) (ops : List Operation) :
    (run attrs ops).Fresh attrs ∧ Holds (survivors attrs ops) (run attrs ops) ∧
      ∀ t, (run attrs ops).constant? t = lastInserted attrs ops t := by
  have hfold : ∀ (ops : List Operation) (l : RuleList) (log : List Rule) (held : Term → Option Term),
      l.Built attrs → Holds log l → (∀ t, l.constant? t = held t) →
      (ops.foldl (apply attrs) l).Fresh attrs ∧
        Holds (ops.foldl (survive attrs) log) (ops.foldl (apply attrs) l) ∧
        ∀ t, (ops.foldl (apply attrs) l).constant? t = ops.foldl (keepLast attrs t) (held t) := by
    intro ops
    induction ops with
    | nil => exact fun l log held hbuilt hholds hheld => ⟨hbuilt.fresh, hholds, hheld⟩
    | cons op ops ih =>
        intro l log held hbuilt hholds hheld
        refine ih _ _ (fun t => keepLast attrs t (held t) op) (hbuilt.apply op)
          (hholds.apply hbuilt.fresh op) fun t => ?_
        rw [constant?_apply, hheld]
  exact hfold ops .empty [] (fun _ => none) .empty ⟨.refl _, (List.mergeSort_nil).symm⟩ fun _ => rfl

/-! ## the shape of a list -/

/-- What a list is like after a history. -/
structure Shape (attrs : Symbol → Attributes) (ops : List Operation) (l : RuleList) : Prop where
  /-- The pattern rules are those that are left, stably sorted. -/
  patterns : l.patterns = bySpecificity ((survivors attrs ops).filter (!·.literal))
  /-- The constant rules are those that are left. -/
  literals : l.literals.Perm ((survivors attrs ops).filter (·.literal))
  /-- For each constant there is the right-hand side that was inserted last. -/
  constant? : ∀ t, l.constant? t = lastInserted attrs ops t
  /-- The size is the number of rules that are left. -/
  size : l.size = (survivors attrs ops).length
  /-- A table is one of this generation. -/
  builtAt : ∀ t, l.table = some t → t.builtAt = l.generation
  /-- It has each pattern rule once, and nothing else. -/
  listed : ∀ t, l.table = some t → t.demoted = [] ∧
    (t.byKey.flatMap (·.2) ++ t.anyKey).Perm (List.range l.patterns.length)
  /-- It lists the pattern rules that a key lets apply, in order. -/
  candidates : ∀ t, l.table = some t → ∀ key,
    (t.candidates key).filterMap (l.patterns[·]?) = l.patterns.filter (·.mayMatch key)

theorem shape_run (attrs : Symbol → Attributes) (ops : List Operation) :
    Shape attrs ops (run attrs ops) := by
  obtain ⟨hfresh, hholds, hconstant⟩ := holds_run attrs ops
  refine ⟨hholds.patterns, hholds.literals, hconstant, ?_, fun t ht => ?_, fun t ht => ⟨?_, ?_⟩,
    fun t ht key => ?_⟩
  · rw [size, ← List.length_append]
    exact hholds.perm.length_eq
  all_goals rw [hfresh.table t ht]
  · rfl
  · exact List.map_eq_nil_iff.mpr hfresh.demoted_eq_nil
  · exact positions_makeTable _ _ _
  · exact candidates_makeTable _ _ _ _

/-! ## orders of insertion -/

/-- The operation that adds a rule. -/
def insertion (r : Rule) : Operation := .insert r.lhs r.rhs r.kind

/-- The list after rules are added one by one. -/
def ofRules (attrs : Symbol → Attributes) (rs : List Rule) : RuleList := run attrs (rs.map insertion)

/-- Rules that do not give way to one another are all left. -/
theorem survivors_insertion (hreads : ∀ r ∈ rs, r.Reads attrs)
    (hapart : rs.Pairwise fun s r => s.givesWay r = false) :
    survivors attrs (rs.map insertion) = rs := by
  have hfold : ∀ log : List Rule, (log ++ rs).Pairwise (fun s r => s.givesWay r = false) →
      (rs.map insertion).foldl (survive attrs) log = log ++ rs := by
    clear hapart
    induction rs with
    | nil => simp
    | cons r rs ih =>
        intro log hlog
        obtain ⟨hr, hrs⟩ := List.forall_mem_cons.mp hreads
        have hnone : ∀ s ∈ log, s.givesWay r = false := fun s hs =>
          (List.pairwise_append.mp hlog).2.2 s hs r List.mem_cons_self
        have hsurvive : survive attrs log (insertion r) = log ++ [r] := by
          rw [insertion, survive, ← show r = .make attrs r.lhs r.rhs r.kind from hr,
            supersede_eq_append hnone]
        rw [List.map_cons, List.foldl_cons, hsurvive, ih hrs, List.append_assoc,
          List.singleton_append]
        rwa [List.append_assoc, List.singleton_append]
  exact hfold [] hapart

/-- Adding rules counts as one change each, and leaves no table. -/
theorem generation_ofRules (attrs : Symbol → Attributes) (rs : List Rule) :
    (ofRules attrs rs).generation = rs.length ∧ (ofRules attrs rs).table = none := by
  have hfold : ∀ l : RuleList, l.table = none →
      ((rs.map insertion).foldl (apply attrs) l).generation = l.generation + rs.length ∧
        ((rs.map insertion).foldl (apply attrs) l).table = none := by
    induction rs with
    | nil => exact fun l hl => ⟨rfl, hl⟩
    | cons r rs ih =>
        intro l hl
        have hinsert : (l.apply attrs (insertion r)).generation = l.generation + 1 ∧
            (l.apply attrs (insertion r)).table = none := by
          rw [insertion, apply, insert]
          split <;> exact ⟨rfl, rfl⟩
        obtain ⟨hgeneration, htable⟩ := ih _ hinsert.2
        rw [hinsert.1] at hgeneration
        exact ⟨hgeneration.trans (by rw [List.length_cons]; omega), htable⟩
  have hempty := hfold .empty rfl
  rwa [show (empty.generation : Nat) = 0 from rfl, Nat.zero_add] at hempty

/-- Rules that have nothing to do with one another: the pattern rules have different walks, and the
constant rules have different left-hand sides. -/
structure Distinct (attrs : Symbol → Attributes) (rs : List Rule) : Prop where
  reads : ∀ r ∈ rs, r.Reads attrs
  keys : rs.Pairwise fun r s => r.literal = false → s.literal = false → r.key ≠ s.key
  constants : rs.Pairwise fun r s => r.literal = true → s.literal = true → (r.lhs == s.lhs) = false

theorem Distinct.perm {rs rs' : List Rule} (h : Distinct attrs rs) (hperm : rs.Perm rs') :
    Distinct attrs rs' where
  reads r hr := h.reads r (hperm.mem_iff.mpr hr)
  keys := (hperm.pairwise_iff fun hrs hs hr => (hrs hr hs).symm).mp h.keys
  constants := (hperm.pairwise_iff fun hrs hs hr => (Term.beq_symm _ _).trans (hrs hr hs)).mp
    h.constants

theorem Distinct.survivors_eq (h : Distinct attrs rs) :
    survivors attrs (rs.map insertion) = rs := by
  refine survivors_insertion h.reads ?_
  refine (h.keys.and h.constants).imp_of_mem fun {s r} hs hr ⟨hkey, hequal⟩ => ?_
  rw [Bool.eq_false_iff]
  intro hway
  have hsr := h.reads s hs
  have hrr := h.reads r hr
  have hsort := Rule.literal_eq_of_givesWay ⟨attrs, hsr⟩ ⟨attrs, hrr⟩ hway
  cases hliteral : r.literal with
  | true =>
      rw [hliteral] at hsort
      rw [Rule.givesWay_of_literal hsr hrr hsort hliteral, hequal hsort hliteral] at hway
      cases hway
  | false =>
      rw [hliteral] at hsort
      exact hkey hsort hliteral (Rule.key_eq_of_givesWay hway)

attribute [ext] RuleList

/-- Distinct rules come to one list in every order. -/
theorem Distinct.ofRules_eq {rs rs' : List Rule} (h : Distinct attrs rs) (hperm : rs.Perm rs') :
    ofRules attrs rs = ofRules attrs rs' := by
  have hshape := shape_run attrs (rs.map insertion)
  have hshape' := shape_run attrs (rs'.map insertion)
  have hliterals : (ofRules attrs rs).literals = (ofRules attrs rs').literals := by
    have htidy := (holds_run attrs (rs.map insertion)).1.tidy
    have htidy' := (holds_run attrs (rs'.map insertion)).1.tidy
    have hsame := hshape.literals.trans (.trans ?_ hshape'.literals.symm)
    · refine hsame.eq_of_pairwise (fun r s _ _ hrs hsr => ?_) htidy.ascending htidy'.ascending
      rw [Term.compare_swap, hrs] at hsr
      cases hsr
    · rw [h.survivors_eq, (h.perm hperm).survivors_eq]
      exact hperm.filter _
  have hpatterns : (ofRules attrs rs).patterns = (ofRules attrs rs').patterns := by
    have hkeys : (rs.filter (!·.literal)).Pairwise fun r s => r.key ≠ s.key :=
      List.pairwise_filter.mpr (h.keys.imp fun hrs hr hs => by simp_all)
    rw [ofRules, ofRules, hshape.patterns, hshape'.patterns, h.survivors_eq,
      (h.perm hperm).survivors_eq, bySpecificity_eq_of_perm (hperm.filter _) hkeys]
  obtain ⟨hgeneration, htable⟩ := generation_ofRules attrs rs
  obtain ⟨hgeneration', htable'⟩ := generation_ofRules attrs rs'
  refine RuleList.ext hliterals hpatterns ?_ (htable.trans htable'.symm)
  rw [hgeneration, hgeneration', hperm.length_eq]

/-- A rule list after any history is what the history makes it, and distinct rules are looked up
alike in whatever order they were added. -/
theorem shape_of_history (attrs : Symbol → Attributes) :
    (∀ ops, Shape attrs ops (run attrs ops)) ∧
      ∀ rs rs' : List Rule, Distinct attrs rs → rs.Perm rs' →
        ∀ (e : Evaluator) (c : ContextId) (subject : Term),
          e.find? c (ofRules attrs rs) subject = e.find? c (ofRules attrs rs') subject :=
  ⟨shape_run attrs, fun _ _ h hperm e c subject => by rw [h.ofRules_eq hperm]⟩

/-- `{1} :> 2`, `{_} :> 3` and `{_, _} :> 4` added in two orders. -/
theorem find?_ofRules_lists :
    (Evaluator.ofFuel 9).find? ⟨0⟩ (ofRules (Kernel.new {}).attributes
        [.make (Kernel.new {}).attributes (.app .list [.int 1]) (.int 2) .delayed,
          .make (Kernel.new {}).attributes (.app .list [.app .blank []]) (.int 3) .delayed,
          .make (Kernel.new {}).attributes (.app .list [.app .blank [], .app .blank []])
            (.int 4) .delayed])
        (.app .list [.int 5]) =
      (Evaluator.ofFuel 9).find? ⟨0⟩ (ofRules (Kernel.new {}).attributes
        [.make (Kernel.new {}).attributes (.app .list [.app .blank []]) (.int 3) .delayed,
          .make (Kernel.new {}).attributes (.app .list [.int 1]) (.int 2) .delayed,
          .make (Kernel.new {}).attributes (.app .list [.app .blank [], .app .blank []])
            (.int 4) .delayed])
        (.app .list [.int 5]) := by
  refine (shape_of_history (Kernel.new {}).attributes).2 _ _ ⟨?_, ?_, ?_⟩ (.swap _ _ _) _ _ _
  · simp [Rule.reads_make]
  · decide
  · decide

end RuleList

end Termwise
