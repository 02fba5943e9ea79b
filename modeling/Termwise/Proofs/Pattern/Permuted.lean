import Termwise.Proofs.Pattern.Fits
import Termwise.Proofs.Term.Ordinary

/-!
# Termwise.Proofs.Pattern.Permuted

Calls of an orderless head against patterns whose slots take one argument each
(`Pattern.TakesOne`): atoms, calls, and blanks with or without a name.  The order of the
arguments does not matter: the solutions are the same ones
(`mem_solutions_call_perm`).

The slots are filled one after the other, whatever the order of the arguments, and what a
slot does depends on the argument that it takes and on the bindings so far.  So an argument
can be taken wherever it is, and what is left is the same but for order.  A slot
may well be tried with several arguments, when its name is bound to a run; but then a blank
does not match.
-/

namespace Termwise

/-! ## taking one item -/

section

variable {α β : Type} {x : α} {xs ys rest before after : List α}

theorem mem_choices_one :
    ([x], rest) ∈ choices 1 xs ↔ ∃ before after, xs = before ++ x :: after ∧ rest = before ++ after := by
  induction xs generalizing rest with
  | nil => simp [choices]
  | cons y xs ih =>
      rw [mem_choices_cons]
      constructor
      · rintro (⟨more, hx, hmore⟩ | ⟨more, rfl, hmore⟩)
        · obtain ⟨rfl, rfl⟩ := List.cons.inj hx
          exact ⟨[], xs, rfl, (mem_choices_zero.mp hmore).2⟩
        · obtain ⟨before, after, rfl, rfl⟩ := ih.mp hmore
          exact ⟨y :: before, after, rfl, rfl⟩
      · rintro ⟨before, after, hxs, rfl⟩
        cases before with
        | nil =>
            obtain ⟨rfl, rfl⟩ := List.cons.inj hxs
            exact .inl ⟨[], rfl, mem_choices_zero.mpr ⟨rfl, rfl⟩⟩
        | cons z before =>
            obtain ⟨rfl, rfl⟩ := List.cons.inj hxs
            exact .inr ⟨before ++ after, rfl, ih.mpr ⟨before, after, rfl, rfl⟩⟩

/-- What can be taken out of a list can be taken out of another one with the same items, and the
same items are left. -/
theorem exists_choice_perm {f : α → β} (hperm : (xs.map f).Perm (ys.map f))
    (h : ([x], rest) ∈ choices 1 xs) :
    ∃ y rest', ([y], rest') ∈ choices 1 ys ∧ f y = f x ∧ (rest.map f).Perm (rest'.map f) := by
  obtain ⟨before, after, rfl, rfl⟩ := mem_choices_one.mp h
  have hmem : f x ∈ ys.map f := hperm.mem_iff.mp (List.mem_map_of_mem (by simp))
  obtain ⟨y, hy, hyx⟩ := List.mem_map.mp hmem
  obtain ⟨before', after', rfl⟩ := List.append_of_mem hy
  refine ⟨y, before' ++ after', mem_choices_one.mpr ⟨before', after', rfl, rfl⟩, hyx, ?_⟩
  simp only [List.map_append, List.map_cons, hyx] at hperm ⊢
  exact (List.perm_middle.symm.trans (hperm.trans List.perm_middle)).cons_inv

end

namespace Pattern

variable {w : World} {p : Pattern} {ps : List Pattern} {b b' : Bindings} {t : Term}

/-! ## slots for one argument -/

/-- Whether a pattern takes exactly one argument: an atom, a term verbatim, a call, or a blank with
or without a name. -/
def takesOne : Pattern → Bool
  | atom _ | literal _ | call _ _ _ | blank _ | named _ (blank _) => true
  | _ => false

/-- A pattern for one argument matches nothing but one term. -/
theorem exists_single?_of_takesOne (hp : p.takesOne = true) (h : b' ∈ p.solutions w t b) :
    ∃ x, t.single? = some x := by
  refine Option.isSome_iff_exists.mp ?_
  cases ht : t.single? with
  | some x => rfl
  | none =>
      cases p with
      | atom _ | literal _ | call _ _ _ | blank _ => simp [solutions, ht] at h
      | named name q =>
          cases q with
          | blank type =>
              rw [solutions] at h
              split at h
              · split at h <;> simp [solutions, ht] at h
              · simp [solutions, ht] at h
          | _ => cases hp
      | _ => cases hp

/-- Slots for one argument each are filled alike from arguments in any order. -/
theorem mem_fillingsAnywhere_perm (hps : ∀ p ∈ ps, p.takesOne = true)
    {free free' : List (Term × Nat)} (hfree : ∀ x ∈ free, x.1.isMarker = false)
    (hperm : (free.map (·.1)).Perm (free'.map (·.1)))
    (h : (b', []) ∈ fillingsAnywhere w ps none free b) :
    (b', []) ∈ fillingsAnywhere w ps none free' b := by
  induction ps generalizing free free' b with
  | nil =>
      rw [fillingsAnywhere, List.mem_singleton, Prod.mk.injEq] at *
      obtain ⟨hb, rfl⟩ := h
      exact ⟨hb, (List.map_eq_nil_iff.mp hperm.symm.eq_nil).symm⟩
  | cons p ps ih =>
      obtain ⟨hp, hps⟩ := List.forall_mem_cons.mp hps
      obtain ⟨n, hn, ⟨taken, left⟩, htaken, b₁, hb₁, hrest⟩ := mem_fillingsAnywhere_cons.mp h
      obtain ⟨hlength, hsplit⟩ := mem_choices htaken
      -- the slot takes one argument, for what it takes is one term
      have hitems : ∀ x ∈ taken.map (·.1), x.isMarker = false := by
        intro x hx
        obtain ⟨a, ha, rfl⟩ := List.mem_map.mp hx
        exact hfree a (hsplit.mem_iff.mp (List.mem_append_left _ ha))
      obtain ⟨x, hx⟩ := exists_single?_of_takesOne hp hb₁
      rw [Term.single?_eq_some_iff, Size.run_value _ hitems] at hx
      obtain ⟨a, rfl⟩ : ∃ a, taken = [a] := List.length_eq_one_iff.mp (by
        rw [← List.length_map (·.1), hx, List.length_singleton])
      obtain rfl : 1 = n := hlength
      obtain ⟨a', left', htaken', ha', hleft⟩ := exists_choice_perm hperm htaken
      have hcount : free'.length = free.length := by
        simpa only [List.length_map] using hperm.length_eq.symm
      refine mem_fillingsAnywhere_cons.mpr
        ⟨1, hcount ▸ hn, ([a'], left'), htaken', b₁, ?_, ih hps (fun x hx => ?_) hleft hrest⟩
      · rw [List.map_singleton, ha']
        exact hb₁
      · exact hfree x (hsplit.mem_iff.mp (List.mem_append_right _ hx))

/-! ## calls of an orderless head -/

variable {f : Symbol} {slots : List Pattern} {whole : Term} {head : Pattern} {j j' : Nat}
  {args args' : List Term}

theorem mem_solutions_call_orderless (hwhole : whole.isLiteral w.attributes = false)
    (horderless : (w.attributes f).has .orderless = true)
    (hflat : (w.attributes f).has .flat = false) :
    b' ∈ (call whole head slots).solutions w (.node j (.symbol f) args) b ↔
      ∃ b₁ ∈ head.solutions w (.symbol f) b,
        (w.shortcuts = true → (totalRange slots b₁).1 ≤ args.length ∧
          args.length ≤ (totalRange slots b₁).2) ∧
        (b', []) ∈ fillingsAnywhere w slots none args.zipIdx b₁ := by
  have hsingle : (Term.node j (.symbol f) args).single? = some (.node j (.symbol f) args) := rfl
  have hhead : (Term.node j (.symbol f) args).headAttributes w.attributes = w.attributes f := rfl
  rw [solutions, hsingle]
  simp only [hwhole, Bool.and_false, Bool.false_eq_true, if_false, hhead, horderless, hflat,
    Bool.not_false, Bool.and_true, if_true, List.mem_flatMap]
  refine exists_congr fun b₁ => and_congr_right fun _ => ?_
  cases w.shortcuts with
  | false => simp [mem_complete]
  | true =>
      simp only [Bool.true_and, Bool.or_eq_true, decide_eq_true_eq, forall_const]
      split
      · simp only [List.not_mem_nil, false_iff, not_and]
        omega
      · rw [mem_complete]
        exact (and_iff_right (by omega)).symm

/-- A call pattern with slots for one argument each matches a call of an orderless head alike
whatever the order of the arguments. -/
theorem mem_solutions_call_perm (hwhole : whole.isLiteral w.attributes = false)
    (hslots : ∀ p ∈ slots, p.takesOne = true)
    (horderless : (w.attributes f).has .orderless = true)
    (hflat : (w.attributes f).has .flat = false)
    (hargs : ∀ x ∈ args, x.isMarker = false) (hperm : args.Perm args')
    (h : b' ∈ (call whole head slots).solutions w (.node j (.symbol f) args) b) :
    b' ∈ (call whole head slots).solutions w (.node j' (.symbol f) args') b := by
  rw [mem_solutions_call_orderless hwhole horderless hflat] at h ⊢
  obtain ⟨b₁, hb₁, hrange, hfilled⟩ := h
  refine ⟨b₁, hb₁, by rwa [← hperm.length_eq], ?_⟩
  refine mem_fillingsAnywhere_perm hslots (fun x hx => ?_) ?_ hfilled
  · exact hargs _ (List.fst_mem_of_mem_zipIdx hx)
  · rwa [List.zipIdx_map_fst, List.zipIdx_map_fst]

end Pattern

end Termwise
