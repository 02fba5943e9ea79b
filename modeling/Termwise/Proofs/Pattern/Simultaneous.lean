import Termwise.Proofs.Pattern.Template

/-!
# Termwise.Proofs.Pattern.Simultaneous

Substitution against its specification.  `Term.substitute` shares what has no bound
name in it and copies an argument list from its first changed item on; the
specification (`Term.filled`) builds every call anew, puts in the place of every bound
name what it is bound to, and splices a run where a bound name is an argument.

* `substitute_of_unbound` — a term without bound names stays the very node it was;
* `substitute_beq_filled` — the two agree on templates in which only the values of bound names are
  runs in the place of an argument (`Term.RunsAreValues`);
* `substitute_own_runs` — a template's own run is left alone before the first changed argument
  and spliced after it.
-/

namespace Termwise.Term

/-! ## the specification -/

mutual

/-- The term with every name replaced at once by what it is bound to first. -/
def filled (b : Bindings) : Term → Term
  | .symbol s => (b.get? s).getD (.symbol s)
  | .node _ head args => call (filled b head) (filledArgs b args)
  | t => t

/-- The argument list with every name replaced at once; what a name is bound to is spliced in if it
is a run. -/
def filledArgs (b : Bindings) : List Term → List Term
  | [] => []
  | .symbol s :: ts => ((b.get? s).getD (.symbol s)).run ++ filledArgs b ts
  | t :: ts => filled b t :: filledArgs b ts

end

/-- Whether no argument of a call in the term becomes a run, unless it is a name that is bound
to one. -/
def RunsAreValues (b : Bindings) (t : Term) : Prop :=
  t.Every fun u => ∀ x ∈ u.args, (x.filled b).isMarker = true → ∃ s, x = .symbol s

instance (b : Bindings) (t : Term) : Decidable (t.RunsAreValues b) :=
  haveI : DecidablePred fun x : Term => ∃ s, x = .symbol s := fun x =>
    match x with
    | .symbol s => isTrue ⟨s, rfl⟩
    | .node .. | .magic _ | .int _ | .float _ | .text _ | .host _ =>
      isFalse (by rintro ⟨_, h⟩; cases h)
  inferInstanceAs (Decidable (t.Every _))

/-- Whether no name in the term is bound. -/
def Unbound (b : Bindings) (t : Term) : Prop :=
  t.Every fun u => ∀ s, u = .symbol s → b.get? s = none

variable {b : Bindings}

theorem runsAreValues_node {i : Nat} {f : Term} {xs : List Term} :
    (Term.node i f xs).RunsAreValues b ↔
      (∀ x ∈ xs, (x.filled b).isMarker = true → ∃ s, x = .symbol s) ∧ f.RunsAreValues b ∧
        ∀ x ∈ xs, x.RunsAreValues b := every_node

/-- A term without bound names stays the very node it was. -/
theorem substitute_of_unbound {t : Term} (h : t.Unbound b) : t.substitute b = t := by
  rw [substitute, substitute?_of_unbound h]
  rfl

/-! ## the same result -/

/-- An argument that becomes a run only as a name gives what it becomes a run of. -/
theorem filledArgs_cons {t : Term} {ts : List Term}
    (h : (t.filled b).isMarker = true → ∃ s, t = .symbol s) :
    filledArgs b (t :: ts) = (t.filled b).run ++ filledArgs b ts := by
  have hrun : (t.filled b).isMarker = false → (t.filled b).run = [t.filled b] :=
    run_of_not_isMarker
  cases t with
  | symbol s => rfl
  | node i f xs =>
      cases hmarker : ((Term.node i f xs).filled b).isMarker with
      | true =>
          obtain ⟨s, hs⟩ := h hmarker
          cases hs
      | false =>
          rw [hrun hmarker]
          rfl
  | _ => rfl

/-- An argument in which nothing was replaced becomes no run. -/
theorem isMarker_filled_of_none {t : Term} (h : (t.filled b).isMarker = true → ∃ s, t = .symbol s)
    (hnone : t.substitute? b = none) : (t.filled b).isMarker = false := by
  cases hmarker : (t.filled b).isMarker with
  | false => rfl
  | true =>
      obtain ⟨s, rfl⟩ := h hmarker
      rw [filled, show b.get? s = none from hnone] at hmarker
      cases hmarker

mutual

/-- What substitution makes of a term, or leaves, has the structure of the specification. -/
theorem strip_substitute? : ∀ {t : Term}, t.RunsAreValues b →
    ((t.substitute? b).getD t).strip = (t.filled b).strip
  | .symbol s, _ => rfl
  | .node i f xs, h => by
      obtain ⟨hruns, hf, hxs⟩ := runsAreValues_node.mp h
      have hhead := strip_substitute? hf
      rw [filled, substitute?]
      cases hnew : f.substitute? b with
      | some new =>
          rw [hnew, Option.getD_some] at hhead
          rw [Option.getD_some, strip_call, strip_call, hhead, map_strip_spliceArgs hruns hxs]
      | none =>
          rw [hnew, Option.getD_none] at hhead
          have hargs := map_strip_substituteArgs? hruns hxs
          cases hnews : substituteArgs? b xs with
          | some news =>
              rw [hnews, Option.getD_some] at hargs
              rw [Option.map_some, Option.getD_some, strip_call, strip_call, hhead, hargs]
          | none =>
              rw [hnews, Option.getD_none] at hargs
              rw [Option.map_none, Option.getD_none, strip_call, ← hhead, ← hargs, strip,
                stripAll_eq_map]
              rfl
  | .magic _, _ | .int _, _ | .float _, _ | .text _, _ | .host _, _ => rfl

/-- An argument list that is copied from its first change on. -/
theorem map_strip_substituteArgs? : ∀ {ts : List Term},
    (∀ x ∈ ts, (x.filled b).isMarker = true → ∃ s, x = .symbol s) →
    (∀ x ∈ ts, x.RunsAreValues b) →
    ((substituteArgs? b ts).getD ts).map strip = (filledArgs b ts).map strip
  | [], _, _ => rfl
  | t :: ts, hruns, h => by
      obtain ⟨hrun, hruns⟩ := List.forall_mem_cons.mp hruns
      obtain ⟨ht, hts⟩ := List.forall_mem_cons.mp h
      have hitem := strip_substitute? ht
      rw [filledArgs_cons hrun, List.map_append, substituteArgs?]
      cases hnew : t.substitute? b with
      | some new =>
          rw [hnew, Option.getD_some] at hitem
          rw [Option.getD_some, List.map_append, run_congr hitem, map_strip_spliceArgs hruns hts]
      | none =>
          rw [hnew, Option.getD_none] at hitem
          have hrest := map_strip_substituteArgs? hruns hts
          rw [run_of_not_isMarker (isMarker_filled_of_none hrun hnew), List.map_singleton, ← hitem,
            ← hrest]
          cases substituteArgs? b ts <;> rfl

/-- An argument list after its first change. -/
theorem map_strip_spliceArgs : ∀ {ts : List Term},
    (∀ x ∈ ts, (x.filled b).isMarker = true → ∃ s, x = .symbol s) →
    (∀ x ∈ ts, x.RunsAreValues b) → (spliceArgs b ts).map strip = (filledArgs b ts).map strip
  | [], _, _ => rfl
  | t :: ts, hruns, h => by
      obtain ⟨hrun, hruns⟩ := List.forall_mem_cons.mp hruns
      obtain ⟨ht, hts⟩ := List.forall_mem_cons.mp h
      rw [filledArgs_cons hrun, spliceArgs, List.map_append, List.map_append,
        run_congr (strip_substitute? ht), map_strip_spliceArgs hruns hts]

end

/-- Substitution gives what the specification gives, where only the values of names become runs in
the place of an argument. -/
theorem substitute_beq_filled {t : Term} (h : t.RunsAreValues b) :
    (t.substitute b == t.filled b) = true :=
  (beq_iff_strip _ _).mpr (strip_substitute? h)

/-- Of the runs that a template has itself, the one before the first changed argument is left alone
and the one after it is spliced in. -/
theorem substitute_own_runs :
    (call (.symbol .list) [marker [.int 1], .symbol ⟨40, "x"⟩, marker [.int 2]]).substitute
        ⟨[(⟨40, "x"⟩, .int 0)]⟩ = call (.symbol .list) [marker [.int 1], .int 0, .int 2] ∧
      ((call (.symbol .list) [marker [.int 1], .symbol ⟨40, "x"⟩, marker [.int 2]]).substitute
          ⟨[(⟨40, "x"⟩, .int 0)]⟩ ==
        (call (.symbol .list) [marker [.int 1], .symbol ⟨40, "x"⟩, marker [.int 2]]).filled
          ⟨[(⟨40, "x"⟩, .int 0)]⟩) = false := ⟨rfl, by decide +kernel⟩

end Termwise.Term
