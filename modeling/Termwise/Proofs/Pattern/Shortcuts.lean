import Mathlib.Data.List.Basic
import Termwise.Proofs.Pattern.Length

/-!
# Termwise.Proofs.Pattern.Shortcuts

The two shortcuts of the search lose nothing and add nothing on ordinary terms:

* `solutions_of_isLiteral` — matching a constant part by part is comparing it as a whole;
* `solutions_shortcuts` — a pattern read off a term has the same solutions, in the same order, with
  and without the shortcuts.

Neither holds of terms with runs in the place of one argument, which part-by-part matching opens
and comparison as a whole does not.
-/

namespace Termwise

namespace Term

theorem beq_comm (a b : Term) : (a == b) = (b == a) := by
  rw [Bool.eq_iff_iff, beq_iff_strip, beq_iff_strip, eq_comm]

theorem Ordinary.single? {t : Term} (h : t.Ordinary) : t.single? = some t :=
  single?_eq_some_iff.mpr h.run

theorem isLiteral_of_mem {attrs : Symbol → Attributes} {xs : List Term}
    (h : areLiteral attrs xs = true) : ∀ x ∈ xs, x.isLiteral attrs = true := by
  induction xs with
  | nil => simp
  | cons x xs ih =>
      rw [areLiteral, Bool.and_eq_true] at h
      exact List.forall_mem_cons.mpr ⟨h.1, ih h.2⟩

theorem areLiteral_of_isLiteral {attrs : Symbol → Attributes} {i : Nat} {f : Term}
    {xs : List Term} (h : (node i f xs).isLiteral attrs = true) :
    areLiteral attrs xs = true := by
  cases f <;> rw [isLiteral, Bool.and_eq_true] at h <;> first | exact h.2 | simp

end Term

theorem mem_zipIdx_ordinary {xs : List Term} (h : ∀ x ∈ xs, x.Ordinary) :
    ∀ x ∈ xs.zipIdx, x.1.Ordinary :=
  fun _ hx => h _ (List.fst_mem_of_mem_zipIdx hx)

/-- Choices from ordinary arguments are ordinary, both what is taken and what is left. -/
theorem ordinary_of_mem_choices {n : Nat} {free : List (Term × Nat)}
    {c : List (Term × Nat) × List (Term × Nat)} (hc : c ∈ choices n free)
    (hfree : ∀ x ∈ free, x.1.Ordinary) (hlen : free.length ≤ Pattern.unbounded) :
    ((∀ x ∈ c.1.map (·.1), x.Ordinary) ∧ (c.1.map (·.1)).length ≤ Pattern.unbounded) ∧
      (∀ x ∈ c.2, x.1.Ordinary) ∧ c.2.length ≤ Pattern.unbounded := by
  obtain ⟨-, hperm⟩ := mem_choices hc
  have hsum : c.1.length + c.2.length = free.length := by
    rw [← List.length_append, hperm.length_eq]
  refine ⟨⟨?_, by rw [List.length_map]; omega⟩,
    fun x hx => hfree x (hperm.subset (List.mem_append_right _ hx)), by omega⟩
  simp only [List.forall_mem_map]
  exact fun x hx => hfree x (hperm.subset (List.mem_append_left _ hx))

namespace Size

theorem counts_one (available : Nat) :
    one.counts available = if available = 0 then [] else [1] := by
  cases available with
  | zero => rfl
  | succ n =>
      simp [counts, one, between]

theorem value_one (flat : Option Term) (x : Term) : one.value flat [x] = x := rfl

end Size

namespace Pattern

/-- Calls of the head of a literal call are matched part by part, and the head is literal. -/
theorem ofTerm_of_head_isLiteral {attrs : Symbol → Attributes} {i : Nat} {f : Term} {xs : List Term}
    (h : (Term.node i f xs).isLiteral attrs = true) :
    f.isLiteral attrs = true ∧ ∀ j ys,
      ofTerm (.node j f ys) = call (.node j f ys) (ofTerm f) (ofTerms ys) := by
  have hf : f.isLiteral attrs = true := by
    cases f with
    | node j g ys =>
        rw [Term.isLiteral, Bool.and_eq_true] at h
        · exact h.1
        · simp
    | _ => rfl
  refine ⟨hf, fun j ys => ?_⟩
  obtain ⟨s, p, rfl, hform, -⟩ | hcall := ofTerm_node j f ys
  · rw [Term.isLiteral, Bool.and_eq_true, Bool.not_eq_true'] at h
    simp only [Symbol.opensMatch, Bool.or_eq_false_iff] at h
    rw [form?_eq_none h.1.1.1] at hform
    cases hform
  · rwa [← ofTerms_eq_map] at hcall

/-! ## constants -/

section Literals

variable {w : World}

/-- The head of a literal call rules nothing about its arguments. -/
theorem headAttributes_of_isLiteral {i : Nat} {f g : Term} {xs : List Term}
    (h : (Term.node i f xs).isLiteral w.attributes = true) (hfg : (f == g) = true) (j : Nat)
    (ys : List Term) :
    ((Term.node j g ys).headAttributes w.attributes).has .flat = false ∧
      ((Term.node j g ys).headAttributes w.attributes).has .orderless = false := by
  have hstrip := (Term.beq_iff_strip f g).mp hfg
  cases g with
  | symbol s =>
      obtain rfl : f = .symbol s := by
        cases f <;> simp [Term.strip] at hstrip
        exact congrArg _ hstrip
      rw [Term.isLiteral, Bool.and_eq_true, Bool.not_eq_true'] at h
      simp only [Symbol.opensMatch, Bool.or_eq_false_iff] at h
      exact ⟨h.1.1.2, h.1.2⟩
  | _ => exact ⟨Attributes.has_none _, Attributes.has_none _⟩

/-- Slots made of constants take one argument each, equal to their constant. -/
theorem fillings_of_areLiteral {ps : List Pattern} {xs : List Term}
    (hps : ps = xs.map ofTerm)
    (hsize : ∀ x ∈ xs, ∀ b, (ofTerm x).size none b = .one)
    (hone : ∀ x ∈ xs, ∀ y : Term, y.Ordinary → ∀ b,
      (ofTerm x).solutions w y b = if (x == y) then [b] else []) :
    ∀ {ys : List Term} {b : Bindings}, (∀ y ∈ ys, y.Ordinary) →
      complete (fillings w ps none ys b) = if Term.equalAll xs ys then [b] else [] := by
  subst hps
  induction xs with
  | nil =>
      intro ys b _
      cases ys <;> rfl
  | cons x xs ih =>
      intro ys b hys
      rw [List.map_cons, fillings, hsize x List.mem_cons_self, Size.counts_one]
      cases ys with
      | nil => rfl
      | cons y ys =>
          have hy := hys y List.mem_cons_self
          have hrest := ih (fun x hx => hsize x (List.mem_cons_of_mem _ hx))
            (fun x hx => hone x (List.mem_cons_of_mem _ hx))
            (b := b) (fun z hz => hys z (List.mem_cons_of_mem _ hz))
          simp only [List.length_cons, Nat.succ_ne_zero, if_false,
            List.flatMap_cons, List.flatMap_nil, List.append_nil, List.take_succ_cons, List.take_zero,
            List.drop_succ_cons, List.drop_zero, Size.value_one, hone x List.mem_cons_self y hy,
            Term.equalAll, ← Term.beq_def]
          by_cases hxy : (x == y) = true
          · simpa [hxy] using hrest
          · simp only [hxy]
            rfl

/-- A constant takes one argument. -/
theorem size_of_isLiteral {attrs : Symbol → Attributes} {a : Term}
    (h : a.isLiteral attrs = true) (b : Bindings) : (ofTerm a).size none b = .one := by
  cases a with
  | node i f xs => rw [(ofTerm_of_head_isLiteral h).2, size]
  | _ => rfl

/-- A constant is made of calls and atoms. -/
theorem every_of_isLiteral {attrs : Symbol → Attributes} {q : Pattern → Prop}
    (hcall : ∀ whole head args, q (call whole head args)) (hatom : ∀ a, q (atom a)) {a : Term}
    (ha : a.isLiteral attrs = true) : (ofTerm a).Every q := by
  refine (every_ofTerm (r := fun t => t.isLiteral attrs = true) (fun i f xs h => ?_) a ha).imp ?_
  · exact ⟨(ofTerm_of_head_isLiteral h).1, Term.isLiteral_of_mem (Term.areLiteral_of_isLiteral h)⟩
  · rintro p ⟨s, hs, rfl⟩
    cases s with
    | node i f xs => exact (ofTerm_of_head_isLiteral hs).2 i xs ▸ hcall _ _ _
    | _ => exact hatom _

/-- Matched part by part, a constant matches what equals it. -/
theorem solutions_of_isLiteral (hw : w.shortcuts = false) : ∀ (a : Term),
    a.isLiteral w.attributes = true → ∀ {t : Term}, t.OrdinaryRun → ∀ b : Bindings,
      (ofTerm a).solutions w t b = if t.single?.any (a == ·) then [b] else []
  | .node i f xs, ha, t, ht, b => by
      obtain ⟨hf, hread⟩ := ofTerm_of_head_isLiteral ha
      have hxs := Term.areLiteral_of_isLiteral ha
      rw [hread, solutions]
      cases hx : t.single? with
      | none => rfl
      | some x =>
          have hord : x.Ordinary := ht.of_single? hx
          simp only [hw, Bool.false_and, Bool.false_eq_true, if_false, Option.any_some]
          cases x with
          | node j g ys =>
              have hhead := solutions_of_isLiteral hw f hf hord.head.ordinaryRun b
              rw [hord.head.single?, Option.any_some] at hhead
              have hargs : complete (fillings w (ofTerms xs) none ys b) =
                  if Term.equalAll xs ys then [b] else [] :=
                fillings_of_areLiteral (ofTerms_eq_map xs)
                  (fun x hx => size_of_isLiteral (Term.isLiteral_of_mem hxs x hx))
                  (fun x hx y hy b => by
                    rw [solutions_of_isLiteral hw x (Term.isLiteral_of_mem hxs x hx) hy.ordinaryRun,
                      hy.single?, Option.any_some])
                  hord.args
              have hnode : (Term.node i f xs == Term.node j g ys) =
                  (f == g && Term.equalAll xs ys) := rfl
              simp only [hhead, hnode]
              by_cases hfg : (f == g) = true
              · obtain ⟨hflat, horderless⟩ := headAttributes_of_isLiteral ha hfg j ys
                simp [hfg, hflat, horderless, hargs]
              · simp [hfg]
          | _ => simp [Term.beq_def, Term.equal]
  | .magic m, _, t, _, b | .int m, _, t, _, b | .float m, _, t, _, b | .text m, _, t, _, b
  | .symbol m, _, t, _, b | .host m, _, t, _, b => by
      rw [ofTerm, solutions]
      · simp only [Term.beq_comm]
      · simp

end Literals

/-! ## all patterns -/

/-- A form whose default, if it has one, stands for ordinary terms. -/
def OrdinaryDefault : Pattern → Prop
  | optional _ (some d) => d.OrdinaryRun
  | _ => True

instance : DecidablePred OrdinaryDefault
  | optional _ (some d) => inferInstanceAs (Decidable d.OrdinaryRun)
  | optional _ none | condition _ _ | tested _ _ | blank _ | blankSequence _ | blankNullSequence _
  | named _ _ | alternatives _ | repeated _ _ _ _ | hold _ | longest _ | shortest _ | literal _
  | sequence _ | except _ | exceptThen _ _ | call _ _ _ | atom _ => inferInstanceAs (Decidable True)

/-- Solutions that agree on ordinary terms give the same repetitions of ordinary terms. -/
theorem repetitions_congr {size : Bindings → Size} {one one' : Term → Bindings → List Bindings}
    {least most : Nat} (h : ∀ {t : Term}, t.OrdinaryRun → ∀ b, one t b = one' t b) :
    ∀ (items : List Term), (∀ x ∈ items, x.Ordinary) → items.length ≤ unbounded →
      ∀ (count : Nat) (b : Bindings),
        repetitions size one least most items count b =
          repetitions size one' least most items count b
  | [], _, _, _, _ => by rw [repetitions, repetitions]
  | item :: rest, hitems, hlen, count, b => by
      rw [repetitions, repetitions]
      split
      · rfl
      · refine List.flatMap_congr fun n hn => ?_
        have hvalue : ((size b).value none ((item :: rest).take n)).OrdinaryRun :=
          Size.ordinaryRun_value _ (Nat.le_trans (List.length_take_le' _ _) hlen)
            (fun x hx => hitems x (List.mem_of_mem_take hx)) (by simp)
        rw [h hvalue]
        refine List.flatMap_congr fun b₁ _ => ?_
        have hdrop : (rest.drop (n - 1)).length ≤ rest.length := by simp
        exact repetitions_congr h (rest.drop (n - 1))
          (fun x hx => hitems x (List.mem_cons_of_mem _ (List.mem_of_mem_drop hx)))
          (by rw [List.length_cons] at hlen; omega) (count + 1) b₁
termination_by items => items.length
decreasing_by simp only [List.length_drop, List.length_cons]; omega

section Shortcuts

variable {attrs : Symbol → Attributes} {holds : Term → Bool}

/-- A flat head makes ordinary calls of ordinary arguments. -/
def OrdinaryHead (flat : Option Term) : Prop :=
  ∀ f ∈ flat, ∀ {items : List Term}, items.length ≤ unbounded → (∀ x ∈ items, x.Ordinary) →
    (Term.call f items).Ordinary

/-- The head of an ordinary call makes ordinary calls of its arguments. -/
theorem ordinaryHead_of_ordinary {i : Nat} {f : Term} {xs : List Term}
    (h : (Term.node i f xs).Ordinary) (flat : Bool) :
    OrdinaryHead (if flat then some f else none) := by
  intro g hg items hlen hitems
  cases flat with
  | true =>
      obtain rfl : f = g := by simpa using hg
      exact h.call hlen hitems
  | false => cases hg

/-- Refusing a number of arguments outside the total range loses no filling of the slots. -/
theorem ite_totalRange (w : World) {args : List Pattern} {i : Nat} {f : Term} {xs : List Term}
    (h : (Term.node i f xs).Ordinary) (b : Bindings) (attrs : Attributes) :
    (if (!attrs.has .flat &&
        (decide (xs.length < (totalRange args b).1) ||
          decide ((totalRange args b).2 < xs.length))) = true then []
      else if attrs.has .orderless then
        complete (fillingsAnywhere w args (if attrs.has .flat then some f else none) xs.zipIdx b)
      else complete (fillings w args (if attrs.has .flat then some f else none) xs b)) =
    if attrs.has .orderless then
      complete (fillingsAnywhere w args (if attrs.has .flat then some f else none) xs.zipIdx b)
    else complete (fillings w args (if attrs.has .flat then some f else none) xs b) := by
  split
  next hrange =>
    simp only [Bool.and_eq_true, Bool.not_eq_true', Bool.or_eq_true, decide_eq_true_eq] at hrange
    obtain ⟨hnotFlat, hout⟩ := hrange
    simp only [hnotFlat, Bool.false_eq_true, if_false]
    symm
    split
    · refine List.eq_nil_iff_forall_not_mem.mpr fun b' hb' => ?_
      have := totalRange_of_mem_fillingsAnywhere (mem_zipIdx_ordinary h.args)
        (by simpa using h.length_le) (mem_complete.mp hb')
      rw [List.length_zipIdx] at this
      omega
    · refine List.eq_nil_iff_forall_not_mem.mpr fun b' hb' => ?_
      have := totalRange_of_mem_fillings h.args h.length_le (mem_complete.mp hb')
      omega
  next => rfl

mutual

/-- On ordinary terms the shortcuts of the search change no solution. -/
theorem solutions_shortcuts : ∀ (p : Pattern), p.Every (fun q => ∃ s, q = ofTerm s) →
    p.Every OrdinaryDefault → ∀ {t : Term}, t.OrdinaryRun → ∀ b : Bindings,
      p.solutions ⟨attrs, holds, true⟩ t b = p.solutions ⟨attrs, holds, false⟩ t b
  | atom _, _, _, _, _, _ | literal _, _, _, _, _, _ | blank _, _, _, _, _, _
  | blankSequence _, _, _, _, _, _ | blankNullSequence _, _, _, _, _, _ => by
      rw [solutions, solutions]
  | named x p, hr, hd, t, ht, b => by
      rw [solutions, solutions]
      simp only [solutions_shortcuts p hr.2 hd.2 ht]
  | condition p _, hr, hd, t, ht, b | tested p _, hr, hd, t, ht, b | hold p, hr, hd, t, ht, b
  | longest p, hr, hd, t, ht, b | shortest p, hr, hd, t, ht, b | except p, hr, hd, t, ht, b => by
      rw [solutions, solutions, solutions_shortcuts p hr.2 hd.2 ht]
  | exceptThen no p, hr, hd, t, ht, b => by
      rw [solutions, solutions, solutions_shortcuts no hr.2.1 hd.2.1 ht,
        solutions_shortcuts p hr.2.2 hd.2.2 ht]
  | alternatives ps, hr, hd, t, ht, b => by
      rw [solutions, solutions, solutionsOfAny_shortcuts ps hr.2 hd.2 ht]
  | repeated p _ _ _, hr, hd, t, ht, b => by
      rw [solutions, solutions]
      exact repetitions_congr (fun ht b => solutions_shortcuts p hr.2 hd.2 ht b) _ ht.each
        ht.fits _ _
  | optional p none, hr, hd, t, ht, b => by
      rw [solutions, solutions, solutions_shortcuts p hr.2 hd.2 ht]
  | optional p (some d), hr, hd, t, ht, b => by
      rw [solutions, solutions, solutions_shortcuts p hr.2 hd.2 ht,
        solutions_shortcuts p hr.2 hd.2 hd.1]
  | sequence ps, hr, hd, t, ht, b => by
      rw [solutions, solutions,
        fillings_shortcuts ps hr.2 hd.2 (fun f hf => by cases hf) ht.each ht.fits]
  | call whole head args, hr, hd, t, ht, b => by
      obtain ⟨s, hs⟩ := hr.1
      obtain ⟨rfl, -⟩ := eq_of_ofTerm_eq_call hs.symm
      by_cases hlit : s.isLiteral attrs = true
      · rw [hs, solutions_of_isLiteral (w := ⟨attrs, holds, false⟩) rfl s hlit ht, ← hs, solutions]
        cases t.single? <;> simp [hlit]
      · rw [solutions, solutions]
        simp only [hlit, Bool.and_false, Bool.false_eq_true, if_false, Bool.true_and,
          Bool.false_and]
        cases hx : t.single? with
        | none => rfl
        | some x =>
            have hord : x.Ordinary := ht.of_single? hx
            cases x with
            | node i f xs =>
                simp only [solutions_shortcuts head hr.2.1 hd.2.1 hord.head.ordinaryRun]
                refine List.flatMap_congr fun b₁ _ => ?_
                have hflat := ordinaryHead_of_ordinary hord
                simp only [fillings_shortcuts args hr.2.2 hd.2.2 (hflat _) hord.args hord.length_le,
                  fillingsAnywhere_shortcuts args hr.2.2 hd.2.2 (hflat _)
                    (mem_zipIdx_ordinary hord.args) (by simpa using hord.length_le)]
                exact ite_totalRange _ hord b₁ _
            | _ => rfl

theorem solutionsOfAny_shortcuts : ∀ (ps : List Pattern), AllEvery (fun q => ∃ s, q = ofTerm s) ps →
    AllEvery OrdinaryDefault ps → ∀ {t : Term}, t.OrdinaryRun → ∀ b : Bindings,
      solutionsOfAny ⟨attrs, holds, true⟩ ps t b = solutionsOfAny ⟨attrs, holds, false⟩ ps t b
  | [], _, _, _, _, _ => rfl
  | p :: ps, hr, hd, t, ht, b => by
      rw [solutionsOfAny, solutionsOfAny, solutions_shortcuts p hr.1 hd.1 ht,
        solutionsOfAny_shortcuts ps hr.2 hd.2 ht]

theorem fillings_shortcuts : ∀ (ps : List Pattern), AllEvery (fun q => ∃ s, q = ofTerm s) ps →
    AllEvery OrdinaryDefault ps → ∀ {flat : Option Term}, OrdinaryHead flat →
      ∀ {args : List Term}, (∀ x ∈ args, x.Ordinary) → args.length ≤ unbounded → ∀ {b : Bindings},
        fillings ⟨attrs, holds, true⟩ ps flat args b = fillings ⟨attrs, holds, false⟩ ps flat args b
  | [], _, _, _, _, _, _, _, _ => rfl
  | p :: ps, hr, hd, flat, hflat, args, hargs, hlen, b => by
      rw [fillings, fillings]
      refine List.flatMap_congr fun n hn => ?_
      have htake : ∀ x ∈ args.take n, x.Ordinary := fun x hx => hargs x (List.mem_of_mem_take hx)
      have hlenTake : (args.take n).length ≤ unbounded :=
        Nat.le_trans (List.length_take_le' _ _) hlen
      have hvalue : ((p.size flat b).value flat (args.take n)).OrdinaryRun :=
        Size.ordinaryRun_value _ hlenTake htake fun f hf => hflat f hf hlenTake htake
      rw [solutions_shortcuts p hr.1 hd.1 hvalue]
      refine List.flatMap_congr fun b₁ _ => ?_
      exact fillings_shortcuts ps hr.2 hd.2 hflat (fun x hx => hargs x (List.mem_of_mem_drop hx))
        (by rw [List.length_drop]; omega)

theorem fillingsAnywhere_shortcuts : ∀ (ps : List Pattern),
    AllEvery (fun q => ∃ s, q = ofTerm s) ps → AllEvery OrdinaryDefault ps →
      ∀ {flat : Option Term}, OrdinaryHead flat → ∀ {free : List (Term × Nat)},
        (∀ x ∈ free, x.1.Ordinary) → free.length ≤ unbounded → ∀ {b : Bindings},
        fillingsAnywhere ⟨attrs, holds, true⟩ ps flat free b =
          fillingsAnywhere ⟨attrs, holds, false⟩ ps flat free b
  | [], _, _, _, _, _, _, _, _ => rfl
  | p :: ps, hr, hd, flat, hflat, free, hfree, hlen, b => by
      rw [fillingsAnywhere, fillingsAnywhere]
      refine List.flatMap_congr fun n _ => List.flatMap_congr fun c hc => ?_
      obtain ⟨⟨htaken, hlenTaken⟩, hleft, hlenLeft⟩ := ordinary_of_mem_choices hc hfree hlen
      have hvalue : ((p.size flat b).value flat (c.1.map (·.1))).OrdinaryRun :=
        Size.ordinaryRun_value _ hlenTaken htaken fun f hf => hflat f hf hlenTaken htaken
      rw [solutions_shortcuts p hr.1 hd.1 hvalue]
      refine List.flatMap_congr fun b₁ _ => ?_
      exact fillingsAnywhere_shortcuts ps hr.2 hd.2 hflat hleft hlenLeft

end

/-- Every form inside a pattern is read off a term. -/
theorem every_exists_ofTerm (t : Term) : (ofTerm t).Every fun p => ∃ s, p = ofTerm s :=
  (every_ofTerm (r := fun _ => True) (fun _ _ _ _ => ⟨trivial, fun _ _ => trivial⟩) t trivial).imp
    fun _ ⟨s, _, hs⟩ => ⟨s, hs⟩

/-- The shortcuts change no solution of a pattern that was read off a term. -/
theorem solutions_ofTerm_shortcuts (pattern : Term) (hd : (ofTerm pattern).Every OrdinaryDefault)
    {t : Term} (ht : t.OrdinaryRun) (b : Bindings) :
    (ofTerm pattern).solutions ⟨attrs, holds, true⟩ t b =
      (ofTerm pattern).solutions ⟨attrs, holds, false⟩ t b :=
  solutions_shortcuts _ (every_exists_ofTerm pattern) hd ht b

/-- The solutions for a call that was read off a term are those for its head, followed by a filling
of its slots, whether or not the search takes its shortcuts. -/
theorem mem_solutions_ofTerm_call {w : World} {s : Term} {head : Pattern} {args : List Pattern}
    (hs : ofTerm s = call s head args) {t : Term} (ht : t.OrdinaryRun) {b b' : Bindings} :
    b' ∈ (ofTerm s).solutions w t b ↔
      ∃ i f xs b₁, t.single? = some (.node i f xs) ∧ b₁ ∈ head.solutions w f b ∧
        let attrs := (Term.node i f xs).headAttributes w.attributes
        let flat := if attrs.has .flat then some f else none
        if attrs.has .orderless then (b', []) ∈ fillingsAnywhere w args flat xs.zipIdx b₁
        else (b', []) ∈ fillings w args flat xs b₁ := by
  obtain ⟨attrs, holds, _ | _⟩ := w
  · rw [hs]
    exact mem_solutions_call_iff rfl
  by_cases hlit : s.isLiteral attrs = true
  · -- compared as a whole, which is the same as part by part
    have hread := every_exists_ofTerm s
    have hdefault : (ofTerm s).Every OrdinaryDefault :=
      every_of_isLiteral (fun _ _ _ => trivial) (fun _ => trivial) hlit
    rw [solutions_ofTerm_shortcuts s hdefault ht, hs, mem_solutions_call_iff rfl]
    rw [hs] at hread hdefault
    refine exists_congr fun i => exists_congr fun f => exists_congr fun xs =>
      exists_congr fun b₁ => and_congr_right fun hx => ?_
    have hord : (Term.node i f xs).Ordinary := ht.of_single? hx
    have hflat := ordinaryHead_of_ordinary hord
    rw [solutions_shortcuts head hread.2.1 hdefault.2.1 hord.head.ordinaryRun]
    simp only [fillings_shortcuts args hread.2.2 hdefault.2.2 (hflat _) hord.args hord.length_le,
      fillingsAnywhere_shortcuts args hread.2.2 hdefault.2.2 (hflat _)
        (mem_zipIdx_ordinary hord.args) (by simpa using hord.length_le)]
  · rw [hs, solutions]
    cases hx : t.single? with
    | none => simp
    | some x =>
        cases x with
        | node i f xs =>
            have hord : (Term.node i f xs).Ordinary := ht.of_single? hx
            simp only [hlit, Bool.and_false, Bool.false_eq_true, if_false, Bool.true_and,
              ite_totalRange _ hord, List.mem_flatMap, mem_ite_complete, Option.some.injEq,
              Term.node.injEq, and_assoc, exists_and_left, exists_eq_left']
        | _ => simp [hlit]

end Shortcuts

end Pattern

end Termwise
