import Mathlib.Data.List.Forall2
import Termwise.Proofs.Pattern.FirstSolution
import Termwise.Proofs.Pattern.Likeness
import Termwise.Proofs.Pattern.Shortcuts

/-!
# Termwise.Proofs.Pattern.Preference

`Longest`, `Shortest` and `HoldPattern` change the order of solutions at most.  A pattern in a
wrapper takes the same numbers of arguments as without, makes the same values of them and has the
same solutions (`Pattern.Interchangeable`), and so has every pattern around it
(`Pattern.Exchanges.interchangeable`), as long as constants are not compared as wholes.

Which arguments of a term are patterns is told by the pattern that it reads as
(`Pattern.readsArg`).  Such an argument may be exchanged without changing how the term is read, but
for that child (`Pattern.exchanges_ofTerm`): what is wrapped is no symbol to name a pattern, and no
range of a repetition.
-/

namespace Termwise

/-! ## sizes without their order -/

namespace Size

/-- Two sizes allow the same numbers of arguments, and make the same values of them. -/
structure SameRange (s t : Size) : Prop where
  least : s.least = t.least
  most : s.most = t.most
  regroups : s.regroups = t.regroups

variable {s t s' t' : Size}

theorem SameRange.refl (s : Size) : s.SameRange s := ⟨rfl, rfl, rfl⟩

theorem SameRange.symm (h : s.SameRange t) : t.SameRange s :=
  ⟨h.least.symm, h.most.symm, h.regroups.symm⟩

theorem SameRange.mem_counts (h : s.SameRange t) {n available : Nat} :
    n ∈ s.counts available ↔ n ∈ t.counts available := by
  rw [Size.mem_counts, Size.mem_counts, h.least, h.most]

theorem SameRange.value_eq (h : s.SameRange t) (flat : Option Term) (items : List Term) :
    s.value flat items = t.value flat items := by
  unfold value
  rw [h.most, h.regroups]

theorem SameRange.join (h : s.SameRange t) (h' : s'.SameRange t') :
    (s.join s').SameRange (t.join t') := by
  refine ⟨?_, ?_, ?_⟩
  · exact congrArg₂ min h.least h'.least
  · exact congrArg₂ max h.most h'.most
  · exact congrArg₂ and h.regroups h'.regroups

theorem SameRange.andThen (h : s.SameRange t) (h' : s'.SameRange t') :
    (s.andThen s').SameRange (t.andThen t') :=
  ⟨congrArg₂ addCount h.least h'.least, congrArg₂ addCount h.most h'.most, h.regroups⟩

end Size

namespace Pattern

/-! ## patterns with the same solutions -/

/-- Two patterns take the same numbers of arguments and have the same solutions, in whatever
order. -/
structure Interchangeable (w : World) (p q : Pattern) : Prop where
  size : ∀ flat b, (p.size flat b).SameRange (q.size flat b)
  solutions : ∀ {t b b'}, b' ∈ p.solutions w t b ↔ b' ∈ q.solutions w t b

namespace Interchangeable

variable {w : World} {p q : Pattern} {ps qs : List Pattern}

theorem refl (w : World) (p : Pattern) : Interchangeable w p p := ⟨fun _ _ => .refl _, Iff.rfl⟩

theorem forall₂_refl (w : World) (ps : List Pattern) : List.Forall₂ (Interchangeable w) ps ps :=
  List.forall₂_same.mpr fun p _ => .refl w p

/-- One of several patterns is exchanged. -/
theorem forall₂_set (h : Interchangeable w p q) :
    ∀ {ps : List Pattern} {n : Nat}, ps[n]? = some p →
      List.Forall₂ (Interchangeable w) ps (ps.set n q)
  | [], _, _ => .nil
  | _ :: ps, 0, hp => by
      cases hp
      exact .cons h (forall₂_refl w ps)
  | p :: ps, n + 1, hp => .cons (.refl w p) (forall₂_set h hp)

theorem sizes (h : List.Forall₂ (Interchangeable w) ps qs) (flat : Option Term) (b : Bindings) :
    List.Forall₂ Size.SameRange (sizes flat b ps) (sizes flat b qs) := by
  induction h with
  | nil => exact .nil
  | cons hp _ ih => exact .cons (hp.size flat b) ih

theorem mem_solutionsOfAny (h : List.Forall₂ (Interchangeable w) ps qs) {t : Term}
    {b b' : Bindings} : b' ∈ solutionsOfAny w ps t b ↔ b' ∈ solutionsOfAny w qs t b := by
  induction h with
  | nil => rfl
  | cons hp _ ih => rw [solutionsOfAny, solutionsOfAny, List.mem_append, List.mem_append,
      hp.solutions, ih]

theorem mem_fillings (h : List.Forall₂ (Interchangeable w) ps qs) {flat : Option Term}
    {args : List Term} {b : Bindings} {f : Bindings × List Term} :
    f ∈ fillings w ps flat args b ↔ f ∈ fillings w qs flat args b := by
  induction h generalizing args b with
  | nil => rfl
  | cons hp _ ih =>
      rw [mem_fillings_cons, mem_fillings_cons]
      have hsize := hp.size flat b
      refine exists_congr fun n => and_congr hsize.mem_counts (exists_congr fun b₁ => ?_)
      rw [hsize.value_eq]
      exact and_congr hp.solutions ih

theorem mem_fillingsAnywhere (h : List.Forall₂ (Interchangeable w) ps qs) {flat : Option Term}
    {free : List (Term × Nat)} {b : Bindings} {f : Bindings × List (Term × Nat)} :
    f ∈ fillingsAnywhere w ps flat free b ↔ f ∈ fillingsAnywhere w qs flat free b := by
  induction h generalizing free b with
  | nil => rfl
  | cons hp _ ih =>
      rw [mem_fillingsAnywhere_cons, mem_fillingsAnywhere_cons]
      have hsize := hp.size flat b
      refine exists_congr fun n => and_congr hsize.mem_counts ?_
      refine exists_congr fun c => and_congr_right fun _ => exists_congr fun b₁ => ?_
      rw [hsize.value_eq]
      exact and_congr hp.solutions ih

/-- Repetitions of interchangeable patterns are the same. -/
theorem mem_repetitions_of (h : Interchangeable w p q) {least most : Nat} {items : List Term}
    {count : Nat} {b b' : Bindings}
    (hb : b' ∈ repetitions (fun b => p.size none b) (p.solutions w) least most items count b) :
    b' ∈ repetitions (fun b => q.size none b) (q.solutions w) least most items count b := by
  refine repetitions_induct (motive := fun items count b b' =>
    b' ∈ repetitions (fun b => q.size none b) (q.solutions w) least most items count b)
    (fun count b hle => ?_) (fun items count b n b₁ b' hlt hn hn0 hb₁ ih => ?_) _ _ _ _ hb
  · exact mem_repetitions.mpr (.inl ⟨rfl, hle, rfl⟩)
  · have hsize := h.size none b
    have hne : items ≠ [] := by
      rintro rfl
      have := (Size.mem_counts.mp hn).2.2
      rw [List.length_nil] at this
      omega
    rw [hsize.value_eq] at hb₁
    exact mem_repetitions.mpr (.inr ⟨hne, hlt, n, hsize.mem_counts.mp hn, hn0, b₁,
      h.solutions.mp hb₁, ih⟩)

theorem symm (h : Interchangeable w p q) : Interchangeable w q p :=
  ⟨fun flat b => (h.size flat b).symm, h.solutions.symm⟩

theorem isEmpty_eq (h : Interchangeable w p q) (t : Term) (b : Bindings) :
    (p.solutions w t b).isEmpty = (q.solutions w t b).isEmpty := by
  rw [Bool.eq_iff_iff, List.isEmpty_iff, List.isEmpty_iff, List.eq_nil_iff_forall_not_mem,
    List.eq_nil_iff_forall_not_mem]
  exact forall_congr' fun _ => not_congr h.solutions

end Interchangeable

/-! ## one child exchanged -/

/-- A pattern with another child in the place of one; a call may be read off another term. -/
inductive Exchanges (p q : Pattern) : Pattern → Pattern → Prop
  | named (x : Symbol) : Exchanges p q (named x p) (named x q)
  | condition (test : Term) : Exchanges p q (condition p test) (condition q test)
  | tested (f : Term) : Exchanges p q (tested p f) (tested q f)
  | alternatives {ps : List Pattern} {n : Nat} : ps[n]? = some p →
      Exchanges p q (alternatives ps) (alternatives (ps.set n q))
  | repeated (bounds : Option Term) (least most : Nat) :
      Exchanges p q (repeated p bounds least most) (repeated q bounds least most)
  | optional (default : Option Term) : Exchanges p q (optional p default) (optional q default)
  | hold : Exchanges p q (hold p) (hold q)
  | longest : Exchanges p q (longest p) (longest q)
  | shortest : Exchanges p q (shortest p) (shortest q)
  | sequence {ps : List Pattern} {n : Nat} : ps[n]? = some p →
      Exchanges p q (sequence ps) (sequence (ps.set n q))
  | except : Exchanges p q (except p) (except q)
  | excluded (body : Pattern) : Exchanges p q (exceptThen p body) (exceptThen q body)
  | exceptThen (no : Pattern) : Exchanges p q (exceptThen no p) (exceptThen no q)
  | head (whole whole' : Term) (args : List Pattern) :
      Exchanges p q (call whole p args) (call whole' q args)
  | arg (whole whole' : Term) (head : Pattern) {ps : List Pattern} {n : Nat} : ps[n]? = some p →
      Exchanges p q (call whole head ps) (call whole' head (ps.set n q))

/-- A pattern keeps its size, but for the order of counts, when a child is exchanged for one that is
interchangeable with it. -/
theorem Exchanges.sameRange {w : World} {p q p' q' : Pattern} (h : Interchangeable w p q)
    (hex : Exchanges p q p' q') (flat : Option Term) (b : Bindings) :
    (p'.size flat b).SameRange (q'.size flat b) := by
  have hsize := h.size flat b
  cases hex with
  | named x =>
      rw [size, size]
      split
      · exact ⟨rfl, rfl, hsize.regroups⟩
      · exact hsize
  | condition | tested | hold | exceptThen =>
      rw [size, size]
      exact hsize
  | longest | shortest =>
      rw [size, size]
      exact ⟨hsize.least, hsize.most, hsize.regroups⟩
  | optional =>
      rw [size, size]
      exact ⟨rfl, hsize.most, hsize.regroups⟩
  | repeated =>
      have hone := h.size none b
      rw [size, size]
      simp only [hone.least, hone.most]
      exact .refl _
  | @alternatives ps n hp =>
      have hsizes := Interchangeable.sizes (h.forall₂_set hp) flat b
      rw [size, size]
      revert hsizes
      generalize Pattern.sizes flat b ps = ss, Pattern.sizes flat b (ps.set n q) = ts
      rintro (_ | ⟨hs, hrest⟩)
      · exact .refl _
      · exact List.rel_foldl (fun _ _ h _ _ h' => h.join h') hs hrest
  | sequence hp =>
      rw [size, size]
      exact List.rel_foldl (fun _ _ h _ _ h' => h.andThen h') (.refl _)
        (Interchangeable.sizes (h.forall₂_set hp) none b)
  | except | excluded | head | arg =>
      rw [size, size]
      exact .refl _

/-- Calls of interchangeable parts have the same solutions; where constants are not compared as
wholes, the terms that the calls were read off do not matter. -/
theorem mem_solutions_call_congr {w : World} (hw : w.shortcuts = false) {whole whole' : Term}
    {head head' : Pattern} {ps qs : List Pattern} (hhead : Interchangeable w head head')
    (hargs : List.Forall₂ (Interchangeable w) ps qs) {t : Term} {b b' : Bindings} :
    b' ∈ (call whole head ps).solutions w t b ↔ b' ∈ (call whole' head' qs).solutions w t b := by
  rw [mem_solutions_call_iff hw, mem_solutions_call_iff hw]
  refine exists_congr fun i => exists_congr fun f => exists_congr fun xs => exists_congr fun b₁ =>
    and_congr_right fun _ => and_congr hhead.solutions ?_
  dsimp only
  rw [Interchangeable.mem_fillings hargs, Interchangeable.mem_fillingsAnywhere hargs]

/-- A pattern keeps its solutions when a child is exchanged for one that is interchangeable with
it. -/
theorem Exchanges.mem_solutions {w : World} (hw : w.shortcuts = false) {p q p' q' : Pattern}
    (h : Interchangeable w p q) (hex : Exchanges p q p' q') {t : Term} {b b' : Bindings} :
    b' ∈ p'.solutions w t b ↔ b' ∈ q'.solutions w t b := by
  cases hex with
  | named x =>
      rw [solutions, solutions]
      split
      · rw [List.mem_ite_nil_right, List.mem_ite_nil_right, h.solutions]
      · exact h.solutions
  | condition | tested =>
      rw [solutions, solutions, List.mem_filter, List.mem_filter, h.solutions]
  | alternatives hp =>
      rw [solutions, solutions]
      exact Interchangeable.mem_solutionsOfAny (h.forall₂_set hp)
  | repeated =>
      rw [solutions, solutions]
      exact ⟨h.mem_repetitions_of, h.symm.mem_repetitions_of⟩
  | optional default =>
      cases default <;> rw [solutions, solutions] <;> split
      · rfl
      all_goals exact h.solutions
  | hold | longest | shortest =>
      rw [solutions, solutions, h.solutions]
  | sequence hp =>
      rw [solutions, solutions, mem_complete, mem_complete,
        Interchangeable.mem_fillings (h.forall₂_set hp)]
  | except | excluded =>
      rw [solutions, solutions, h.isEmpty_eq]
  | exceptThen =>
      rw [solutions, solutions, List.mem_ite_nil_right, List.mem_ite_nil_right, h.solutions]
  | head _ _ args =>
      exact mem_solutions_call_congr hw h (Interchangeable.forall₂_refl w args)
  | arg _ _ head hp =>
      exact mem_solutions_call_congr hw (.refl w head) (h.forall₂_set hp)

theorem Exchanges.interchangeable {w : World} (hw : w.shortcuts = false) {p q p' q' : Pattern}
    (h : Interchangeable w p q) (hex : Exchanges p q p' q') : Interchangeable w p' q' :=
  ⟨hex.sameRange h, hex.mem_solutions hw h⟩

end Pattern

/-! ## arguments that are patterns -/

theorem Term.exists_node_of_kind {t : Term} (h : t.kind = .expr) :
    ∃ i f xs, t = .node i f xs := by
  cases t with
  | node i f xs => exact ⟨i, f, xs, rfl⟩
  | _ => cases h

namespace Pattern

/-- Whether an argument of the term that a pattern was read off is a pattern itself. -/
def readsArg : Pattern → Nat → Bool
  | named _ _, n => n == 1
  | condition _ _, n | tested _ _, n | repeated _ _ _ _, n | optional _ _, n => n == 0
  | alternatives _, _ | hold _, _ | longest _, _ | shortest _, _ | sequence _, _ | except _, _
  | exceptThen _ _, _ | call _ _ _, _ => true
  | blank _, _ | blankSequence _, _ | blankNullSequence _, _ | literal _, _ | atom _, _ => false

/-- Readings of pattern syntax before and after an argument that is a pattern is exchanged. -/
def Rereads (n : Nat) (x x' : Term) (o o' : Option Pattern) : Prop :=
  (∀ p, o = some p → p.readsArg n = true →
    ∃ p', o' = some p' ∧ Exchanges (ofTerm x) (ofTerm x') p p') ∧ (o = none → o' = none)

theorem rereads_none (n : Nat) (x x' : Term) : Rereads n x x' none none := ⟨nofun, fun _ => rfl⟩

theorem rereads_some {n : Nat} {x x' : Term} {p p' : Pattern}
    (h : p.readsArg n = true → Exchanges (ofTerm x) (ofTerm x') p p') :
    Rereads n x x' (some p) (some p') := by
  refine ⟨fun q hq hn => ?_, nofun⟩
  cases hq
  exact ⟨p', rfl, h hn⟩

theorem rereads_of_not {n : Nat} {x x' : Term} {p : Pattern} {o : Option Pattern}
    (h : p.readsArg n = false) : Rereads n x x' (some p) o := by
  refine ⟨fun q hq hn => ?_, nofun⟩
  cases hq
  rw [h] at hn
  cases hn

open Likeness in
/-- Exchanging an argument that is a pattern for a call that is no range changes nothing else in the
reading of pattern syntax. -/
theorem rereads_form? (s : Symbol) {xs : List Term} {n : Nat} {x x' : Term} (hx : xs[n]? = some x)
    (hnode : x'.kind = .expr) (hrange : range? x' = none) :
    Rereads n x x' (form? s xs (xs.map ofTerm))
      (form? s (xs.set n x') ((xs.map ofTerm).set n (ofTerm x'))) := by
  have hread : (xs.map ofTerm)[n]? = some (ofTerm x) := by rw [List.getElem?_map, hx]; rfl
  unfold form?
  refine rel_ite ?blank (rel_ite ?blankSequence (rel_ite ?blankNullSequence (rel_ite ?pattern
    (rel_ite ?condition (rel_ite ?patternTest
    (rel_ite (rereads_some fun _ => .alternatives hread) (rel_ite ?repeated (rel_ite ?optional
    (rel_ite ?hold (rel_ite ?longest (rel_ite ?shortest (rel_ite ?literal
    (rel_ite (rereads_some fun _ => .sequence hread)
    (rel_ite ?except (rereads_none n x x')))))))))))))))
  case blank | blankSequence | blankNullSequence | literal =>
    match xs, n, hx with
    | [_], 0, _ => exact rereads_of_not rfl
    | _ :: _ :: _, 0, _ | _ :: _ :: _, 1, _ | _ :: _ :: _, n + 2, _ => exact rereads_none _ _ _
  case pattern =>
    obtain ⟨j, g, ys, rfl⟩ := Term.exists_node_of_kind hnode
    match xs, n, hx with
    | [.symbol _, _], 1, hx =>
        cases hx
        exact rereads_some fun _ => .named _
    | [.symbol _, _], 0, _ => exact rereads_of_not rfl
    | [.magic _, _], 0, _ | [.int _, _], 0, _ | [.float _, _], 0, _ | [.text _, _], 0, _
    | [.host _, _], 0, _ | [.node _ _ _, _], 0, _ => exact rereads_none _ _ _
    | [.magic _, _], 1, _ | [.int _, _], 1, _ | [.float _, _], 1, _ | [.text _, _], 1, _
    | [.host _, _], 1, _ | [.node _ _ _, _], 1, _ => exact rereads_none _ _ _
    | [a], 0, _ => cases a <;> exact rereads_none _ _ _
    | a :: _ :: _ :: _, 0, _ | a :: _ :: _ :: _, 1, _ | a :: _ :: _ :: _, 2, _
    | a :: _ :: _ :: _, n + 3, _ => cases a <;> exact rereads_none _ _ _
  case condition | patternTest =>
    match xs, n, hx with
    | [a], 0, hx => exact rereads_none _ _ _
    | [a, b], 0, hx =>
        cases hx
        exact rereads_some fun _ => by constructor
    | [a, b], 1, hx => exact rereads_of_not rfl
    | _ :: _ :: _ :: _, 0, _ | _ :: _ :: _ :: _, 1, _ | _ :: _ :: _ :: _, 2, _
    | _ :: _ :: _ :: _, n + 3, _ => exact rereads_none _ _ _
  case repeated =>
    match xs, n, hx with
    | [a], 0, hx =>
        cases hx
        exact rereads_some fun _ => .repeated _ _ _
    | [a, b], 0, hx =>
        cases hx
        change Rereads 0 x x' ((range? b).map fun r => repeated (ofTerm x) (some b) r.1 r.2)
          ((range? b).map fun r => repeated (ofTerm x') (some b) r.1 r.2)
        cases range? b with
        | none => exact rereads_none _ _ _
        | some range => exact rereads_some fun _ => .repeated _ _ _
    | [a, b], 1, hx =>
        cases hx
        change Rereads 1 x x' ((range? x).map _) ((range? x').map _)
        rw [hrange]
        cases range? x with
        | none => exact rereads_none _ _ _
        | some range => exact rereads_of_not rfl
    | _ :: _ :: _ :: _, 0, _ | _ :: _ :: _ :: _, 1, _ | _ :: _ :: _ :: _, 2, _
    | _ :: _ :: _ :: _, n + 3, _ => exact rereads_none _ _ _
  case optional =>
    match xs, n, hx with
    | [a], 0, hx | [a, b], 0, hx =>
        cases hx
        exact rereads_some fun _ => .optional _
    | [a, b], 1, hx => exact rereads_of_not rfl
    | _ :: _ :: _ :: _, 0, _ | _ :: _ :: _ :: _, 1, _ | _ :: _ :: _ :: _, 2, _
    | _ :: _ :: _ :: _, n + 3, _ => exact rereads_none _ _ _
  case hold | longest | shortest =>
    match xs, n, hx with
    | [a], 0, hx =>
        cases hx
        exact rereads_some fun _ => by constructor
    | _ :: _ :: _, 0, _ | _ :: _ :: _, 1, _ | _ :: _ :: _, n + 2, _ => exact rereads_none _ _ _
  case except =>
    match xs, n, hx with
    | [a], 0, hx =>
        cases hx
        exact rereads_some fun _ => .except
    | [a, b], 0, hx =>
        cases hx
        exact rereads_some fun _ => .excluded _
    | [a, b], 1, hx =>
        cases hx
        exact rereads_some fun _ => .exceptThen _
    | _ :: _ :: _ :: _, 0, _ | _ :: _ :: _ :: _, 1, _ | _ :: _ :: _ :: _, 2, _
    | _ :: _ :: _ :: _, n + 3, _ => exact rereads_none _ _ _


theorem ofTerm_symbol (i : Nat) (s : Symbol) (xs : List Term) :
    ofTerm (.node i (.symbol s) xs) = (form? s xs (xs.map ofTerm)).getD
      (call (.node i (.symbol s) xs) (atom (.symbol s)) (xs.map ofTerm)) := by
  rw [← ofTerms_eq_map]
  rfl

theorem ofTerm_of_not_symbol (i : Nat) {f : Term} (xs : List Term) (h : ∀ s, f ≠ .symbol s) :
    ofTerm (.node i f xs) = call (.node i f xs) (ofTerm f) (xs.map ofTerm) := by
  obtain ⟨s, p, rfl, -⟩ | hcall := ofTerm_node i f xs
  · exact absurd rfl (h s)
  · exact hcall

/-- A call whose argument is exchanged reads as the pattern with that child exchanged. -/
theorem exchanges_ofTerm (i j : Nat) (f : Term) {xs : List Term} {n : Nat} {x x' : Term}
    (hx : xs[n]? = some x) (hn : (ofTerm (.node i f xs)).readsArg n = true)
    (hnode : x'.kind = .expr) (hrange : range? x' = none) :
    Exchanges (ofTerm x) (ofTerm x') (ofTerm (.node i f xs))
      (ofTerm (.node j f (xs.set n x'))) := by
  have hread : (xs.map ofTerm)[n]? = some (ofTerm x) := by rw [List.getElem?_map, hx]; rfl
  have hcall : ∀ head, Exchanges (ofTerm x) (ofTerm x') (call (.node i f xs) head (xs.map ofTerm))
      (call (.node j f (xs.set n x')) head ((xs.set n x').map ofTerm)) := fun head => by
    rw [List.map_set]
    exact .arg _ _ _ hread
  by_cases hf : ∃ s, f = .symbol s
  · obtain ⟨s, rfl⟩ := hf
    obtain ⟨hsome, hnone⟩ := rereads_form? s hx hnode hrange
    rw [ofTerm_symbol] at hn ⊢
    rw [ofTerm_symbol]
    cases hform : form? s xs (xs.map ofTerm) with
    | some p =>
        rw [hform, Option.getD_some] at hn
        obtain ⟨p', hform', hex⟩ := hsome p hform hn
        rwa [List.map_set, hform', Option.getD_some, Option.getD_some]
    | none =>
        have hform' := hnone hform
        rw [← List.map_set] at hform'
        rw [hform', Option.getD_none, Option.getD_none]
        exact hcall _
  · have hf : ∀ s, f ≠ .symbol s := fun s hs => hf ⟨s, hs⟩
    rw [ofTerm_of_not_symbol i _ hf, ofTerm_of_not_symbol j _ hf]
    exact hcall _

/-- A condition that looks at no child holds all over a pattern after an exchange as before. -/
theorem Exchanges.every {r : Pattern → Prop} {p q p' q' : Pattern} (hex : Exchanges p q p' q')
    (hr : r p' → r q') (hq : q.Every r) (h : p'.Every r) : q'.Every r := by
  have hset : ∀ {ps : List Pattern} {n : Nat}, (∀ c ∈ ps, c.Every r) →
      ∀ c ∈ ps.set n q, c.Every r := fun hps c hc => by
    obtain hc | rfl := List.mem_or_eq_of_mem_set hc
    · exact hps c hc
    · exact hq
  rw [every_iff] at h ⊢
  refine ⟨hr h.1, ?_⟩
  obtain ⟨-, h⟩ := h
  cases hex with
  | alternatives | sequence => exact hset h
  | named | condition | tested | repeated | optional | hold | longest | shortest | except =>
      exact List.forall_mem_singleton.mpr hq
  | excluded | head => exact List.forall_mem_cons.mpr ⟨hq, (List.forall_mem_cons.mp h).2⟩
  | exceptThen =>
      have hno := (List.forall_mem_cons.mp h).1
      exact List.forall_mem_cons.mpr ⟨hno, List.forall_mem_singleton.mpr hq⟩
  | arg =>
      obtain ⟨hhead, hargs⟩ := List.forall_mem_cons.mp h
      exact List.forall_mem_cons.mpr ⟨hhead, hset hargs⟩

/-- What holds all over a pattern holds all over the child that is exchanged. -/
theorem Exchanges.every_child {r : Pattern → Prop} {p q p' q' : Pattern}
    (hex : Exchanges p q p' q') (h : p'.Every r) : p.Every r := by
  have hchildren := ((every_iff p').mp h).2
  cases hex with
  | alternatives hp | sequence hp => exact hchildren p (List.mem_of_getElem? hp)
  | named | condition | tested | repeated | optional | hold | longest | shortest | except
  | excluded | head => exact hchildren p List.mem_cons_self
  | exceptThen => exact hchildren p (List.mem_cons_of_mem _ List.mem_cons_self)
  | arg _ _ _ hp => exact hchildren p (List.mem_cons_of_mem _ (List.mem_of_getElem? hp))

theorem Exchanges.settled {tests : Prop} {p q p' q' : Pattern} (h : Exchanges p q p' q') :
    Settled tests p' → Settled tests q' := by
  cases h with
  | optional default => cases default <;> exact id
  | _ => exact id

theorem Exchanges.ordinaryDefault {p q p' q' : Pattern} (h : Exchanges p q p' q') :
    OrdinaryDefault p' → OrdinaryDefault q' := by
  cases h with
  | optional default => cases default <;> exact id
  | _ => exact id

end Pattern

/-! ## wrapped parts -/

/-- A pattern with one of the patterns in it wrapped in `Longest`, `Shortest` or `HoldPattern`. -/
inductive Term.Prefers : Term → Term → Prop
  | wrap {s : Symbol} (i : Nat) (t : Term) : s ∈ [Symbol.longest, .shortest, .holdPattern] →
      Prefers t (.node i (.symbol s) [t])
  | head (i j : Nat) {f f' : Term} {xs : List Term} :
      Pattern.ofTerm (.node i f xs) =
        .call (.node i f xs) (Pattern.ofTerm f) (xs.map Pattern.ofTerm) →
      Prefers f f' → Prefers (.node i f xs) (.node j f' xs)
  | arg (i j : Nat) {f : Term} {xs : List Term} {n : Nat} {x x' : Term} : xs[n]? = some x →
      (Pattern.ofTerm (.node i f xs)).readsArg n = true → Prefers x x' →
      Prefers (.node i f xs) (.node j f (xs.set n x'))

namespace Term.Prefers

open Pattern

variable {t t' : Term}

theorem kind_eq (h : Prefers t t') : t'.kind = .expr := by
  cases h <;> rfl

theorem bound?_eq_none (h : Prefers t t') : bound? t' = none := by
  cases h <;> rfl

/-- What is wrapped is no range of numbers of repetitions. -/
theorem range?_eq_none (h : Prefers t t') : range? t' = none := by
  cases h with
  | wrap i t hs =>
      simp only [List.mem_cons, List.not_mem_nil, or_false] at hs
      obtain rfl | rfl | rfl := hs <;> rfl
  | head i j _ hf =>
      obtain ⟨k, g, ys, rfl⟩ := exists_node_of_kind hf.kind_eq
      rfl
  | @arg i j f xs n x x' hx _ hxx' =>
      have hnone := hxx'.bound?_eq_none
      cases f with
      | symbol s =>
          simp only [range?]
          split
          · -- only a list of one or two bounds is a range
            obtain _ | ⟨y, _ | ⟨z, _ | ⟨w, ys⟩⟩⟩ := xs <;> obtain _ | _ | _ | n := n <;>
              simp_all
          · rfl
      | _ => rfl

/-- A wrapper reads as the wrapped pattern in one of three forms. -/
theorem ofTerm_wrap {s : Symbol} (hs : s ∈ [Symbol.longest, .shortest, .holdPattern]) (i : Nat)
    (t : Term) : ofTerm (.node i (.symbol s) [t]) = Pattern.longest (ofTerm t) ∨
      ofTerm (.node i (.symbol s) [t]) = Pattern.shortest (ofTerm t) ∨
      ofTerm (.node i (.symbol s) [t]) = Pattern.hold (ofTerm t) := by
  simp only [List.mem_cons, List.not_mem_nil, or_false] at hs
  obtain rfl | rfl | rfl := hs
  · exact .inl rfl
  · exact .inr (.inl rfl)
  · exact .inr (.inr rfl)

theorem ofTerm_head (h : Prefers t t') (j : Nat) (xs : List Term) :
    ofTerm (.node j t' xs) = Pattern.call (.node j t' xs) (ofTerm t') (xs.map ofTerm) := by
  refine ofTerm_of_not_symbol j xs fun s hs => ?_
  have hkind := h.kind_eq
  rw [hs] at hkind
  cases hkind

/-- Wrapping a part keeps the solutions. -/
theorem interchangeable {w : World} (hw : w.shortcuts = false) (h : Prefers t t') :
    Interchangeable w (ofTerm t) (ofTerm t') := by
  induction h with
  | wrap i t hs =>
      obtain hread | hread | hread := ofTerm_wrap hs i t <;> rw [hread]
      · exact ⟨fun _ _ => ⟨rfl, rfl, rfl⟩, by simp [solutions]⟩
      · exact ⟨fun _ _ => ⟨rfl, rfl, rfl⟩, by simp [solutions]⟩
      · exact ⟨fun _ _ => ⟨rfl, rfl, rfl⟩, by simp [solutions]⟩
  | head i j hread hf ih =>
      rw [hread, hf.ofTerm_head]
      exact (Exchanges.head _ _ _).interchangeable hw ih
  | arg i j hx hn hxx' ih =>
      exact (exchanges_ofTerm i j _ hx hn hxx'.kind_eq hxx'.range?_eq_none).interchangeable hw ih

/-- A condition that looks at no child and holds of wrappers holds all over the wrapped pattern as
before. -/
theorem every {r : Pattern → Prop}
    (hr : ∀ {p q p' q'}, Exchanges p q p' q' → r p' → r q')
    (hwrap : ∀ p, r (.longest p) ∧ r (.shortest p) ∧ r (.hold p)) (h : Prefers t t')
    (ht : (ofTerm t).Every r) : (ofTerm t').Every r := by
  induction h with
  | wrap i t hs =>
      obtain ⟨hlongest, hshortest, hhold⟩ := hwrap (ofTerm t)
      obtain hread | hread | hread := ofTerm_wrap hs i t <;> rw [hread]
      · exact ⟨hlongest, ht⟩
      · exact ⟨hshortest, ht⟩
      · exact ⟨hhold, ht⟩
  | head i j hread hf ih =>
      rw [hread] at ht
      rw [hf.ofTerm_head]
      exact (Exchanges.head _ _ _).every (hr (.head _ _ _)) (ih ht.2.1) ht
  | @arg i j f xs n x x' hx hn hxx' ih =>
      have hex := exchanges_ofTerm i j f hx hn hxx'.kind_eq hxx'.range?_eq_none
      exact hex.every (hr hex) (ih (hex.every_child ht)) ht

theorem settled (h : Prefers t t') (ht : (ofTerm t).Every (Settled True)) :
    (ofTerm t').Every (Settled True) :=
  h.every (fun hex => hex.settled) (fun _ => ⟨trivial, trivial, trivial⟩) ht

theorem ordinaryDefault (h : Prefers t t') (ht : (ofTerm t).Every OrdinaryDefault) :
    (ofTerm t').Every OrdinaryDefault :=
  h.every (fun hex => hex.ordinaryDefault) (fun _ => ⟨trivial, trivial, trivial⟩) ht

end Term.Prefers

end Termwise
