import Termwise.Pattern.Valid
import Termwise.Proofs.Pattern.Every

/-!
# Termwise.Proofs.Pattern.Valid

What a pattern without defects can rely on: a pattern that is repeated in it takes at
least one argument (`every_nonempty_of_defect?`).
-/

namespace Termwise

namespace Pattern

/-- A form that repeats only what takes some argument. -/
def NonemptyRepeat : Pattern → Prop
  | repeated p _ _ _ => (p.size none .empty).least ≠ 0
  | _ => True

/-- A repetition is read off a call of `Repeated` with the repeated pattern first, and a range that
reads after it, if any. -/
theorem form?_eq_repeated {s : Symbol} {xs : List Term} {p : Pattern} {bounds : Option Term}
    {least most : Nat} (h : form? s xs (xs.map ofTerm) = some (repeated p bounds least most)) :
    s = .repeated ∧ ∃ x, p = ofTerm x ∧
      (xs = [x] ∨ ∃ range, xs = [x, range] ∧ (range? range).isNone = false) := by
  by_cases hrepeated : s = .repeated
  · subst hrepeated
    refine ⟨rfl, ?_⟩
    match xs with
    | [] => cases h
    | [x] =>
        change some (repeated (ofTerm x) none 1 unbounded) = _ at h
        cases h
        exact ⟨x, rfl, .inl rfl⟩
    | [x, range] =>
        change (range? range).map (fun r => repeated (ofTerm x) (some range) r.1 r.2) = _ at h
        obtain ⟨r, hr, hp⟩ := Option.map_eq_some_iff.mp h
        cases hp
        exact ⟨x, rfl, .inr ⟨range, rfl, by simp [hr]⟩⟩
    | _ :: _ :: _ :: _ => cases h
  · refine absurd h ?_
    unfold form?
    repeat'
      refine iteInduction (motive := fun x => x ≠ some (repeated p bounds least most))
        (fun _ => ?_) fun _ => ?_
    all_goals
      try split
      all_goals
        intro h
        first
        | exact hrepeated ‹s = .repeated›
        | cases h

/-- The repeated pattern of a call without defects takes some argument. -/
theorem least_ne_zero_of_callDefect? {whole x : Term} {xs : List Term}
    (hx : xs = [x] ∨ ∃ range, xs = [x, range] ∧ (range? range).isNone = false)
    (h : Term.callDefect? whole .repeated xs = none) :
    ((ofTerm x).size none .empty).least ≠ 0 := by
  have hrepeat : Term.callDefect?.emptyRepeat? whole x = none := by
    obtain rfl | ⟨range, rfl, hrange⟩ := hx
    · exact h
    · change (if (range? range).isNone then _ else _) = _ at h
      rwa [hrange, if_neg Bool.false_ne_true] at h
  intro hzero
  rw [Term.callDefect?.emptyRepeat?, if_pos hzero] at hrepeat
  cases hrepeat

theorem defect?_eq_none_of_mem {xs : List Term} (h : Term.defects? xs = none) :
    ∀ x ∈ xs, x.defect? = none := by
  induction xs with
  | nil => simp
  | cons x xs ih =>
      rw [Term.defects?, Option.or_eq_none_iff] at h
      exact List.forall_mem_cons.mpr ⟨h.1, ih h.2⟩

theorem defect?_parts {i : Nat} {f : Term} {xs : List Term}
    (h : (Term.node i f xs).defect? = none) :
    f.defect? = none ∧ ∀ x ∈ xs, x.defect? = none := by
  cases f with
  | symbol s =>
      rw [Term.defect?, Option.or_eq_none_iff] at h
      exact ⟨rfl, defect?_eq_none_of_mem h.2⟩
  | _ =>
      rw [Term.defect?, Option.or_eq_none_iff] at h
      · exact ⟨h.1, defect?_eq_none_of_mem h.2⟩
      · simp

/-- A pattern without defects repeats only what takes some argument. -/
theorem every_nonempty_of_defect? {t : Term} (h : t.defect? = none) :
    (ofTerm t).Every NonemptyRepeat := by
  refine (every_ofTerm (r := fun t => t.defect? = none) (fun _ _ _ => defect?_parts) t h).imp ?_
  rintro p ⟨s, hs, rfl⟩
  cases hp : ofTerm s with
  | repeated p bounds least most =>
      cases s with
      | node i f xs =>
          obtain ⟨s, q, rfl, hform, hq⟩ | hcall := ofTerm_node i f xs
          · rw [← hq, hp] at hform
            obtain ⟨rfl, x, rfl, hx⟩ := form?_eq_repeated hform
            rw [Term.defect?, Option.or_eq_none_iff] at hs
            exact least_ne_zero_of_callDefect? hx hs.1
          · rw [hcall] at hp
            cases hp
      | _ => cases hp
  | _ => trivial

end Pattern

end Termwise
