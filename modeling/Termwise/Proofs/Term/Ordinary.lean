import Termwise.Pattern.Match

/-!
# Termwise.Proofs.Term.Ordinary

Conditions on all terms inside a term, and the terms that calls are normally made
of: no run of terms stands in one place, and argument lists fit in memory.

* `Term.every_node` — a condition holds all over a call when it holds of the call and all over its
  parts;
* `Size.run_value` — the value of a slot stands for the arguments it was made from;
* `Size.ordinaryRun_value` — the value of a slot stands for ordinary terms again.
-/

namespace Termwise

namespace Term

/-! ## all terms inside a term -/

mutual

/-- Whether a condition holds of a term and of every term inside it. -/
def Every (q : Term → Prop) : Term → Prop
  | .node i f xs => q (.node i f xs) ∧ Every q f ∧ AllEvery q xs
  | .magic m => q (.magic m)
  | .int n => q (.int n)
  | .float x => q (.float x)
  | .text s => q (.text s)
  | .symbol s => q (.symbol s)
  | .host o => q (.host o)

/-- Whether a condition holds of several terms and of every term inside them. -/
def AllEvery (q : Term → Prop) : List Term → Prop
  | [] => True
  | t :: ts => Every q t ∧ AllEvery q ts

end

mutual

/-- Conditions that can be decided can be decided all over a term. -/
instance decidableEvery {q : Term → Prop} [DecidablePred q] : ∀ t, Decidable (Every q t)
  | .node i f xs =>
    @instDecidableAnd (q (.node i f xs)) _ _
      (@instDecidableAnd _ _ (decidableEvery f) (decidableAllEvery xs))
  | .magic m => inferInstanceAs (Decidable (q (.magic m)))
  | .int n => inferInstanceAs (Decidable (q (.int n)))
  | .float x => inferInstanceAs (Decidable (q (.float x)))
  | .text s => inferInstanceAs (Decidable (q (.text s)))
  | .symbol s => inferInstanceAs (Decidable (q (.symbol s)))
  | .host o => inferInstanceAs (Decidable (q (.host o)))

instance decidableAllEvery {q : Term → Prop} [DecidablePred q] : ∀ ts, Decidable (AllEvery q ts)
  | [] => inferInstanceAs (Decidable True)
  | t :: ts => @instDecidableAnd _ _ (decidableEvery t) (decidableAllEvery ts)

end

variable {q r : Term → Prop} {t : Term}

theorem allEvery_iff {ts : List Term} : AllEvery q ts ↔ ∀ t ∈ ts, t.Every q := by
  induction ts with
  | nil => simp [AllEvery]
  | cons t ts ih => simp [AllEvery, ih]

theorem every_node {i : Nat} {f : Term} {xs : List Term} :
    (Term.node i f xs).Every q ↔ q (.node i f xs) ∧ f.Every q ∧ ∀ x ∈ xs, x.Every q := by
  rw [Every, allEvery_iff]

theorem Every.here (h : t.Every q) : q t := by
  cases t with
  | node i f xs => exact (every_node.mp h).1
  | _ => exact h

mutual

theorem Every.imp (h : ∀ t, q t → r t) : ∀ {t : Term}, t.Every q → t.Every r
  | .node _ _ _, ht => ⟨h _ ht.1, ht.2.1.imp h, ht.2.2.imp h⟩
  | .magic _, ht | .int _, ht | .float _, ht | .text _, ht | .symbol _, ht | .host _, ht => h _ ht

theorem AllEvery.imp (h : ∀ t, q t → r t) : ∀ {ts : List Term}, AllEvery q ts → AllEvery r ts
  | [], _ => trivial
  | _ :: _, ht => ⟨ht.1.imp h, ht.2.imp h⟩

end

mutual

/-- What holds of every term holds of all terms inside one. -/
theorem every_of_forall (h : ∀ t, q t) : ∀ t : Term, t.Every q
  | .node _ f xs => ⟨h _, every_of_forall h f, allEvery_of_forall h xs⟩
  | .magic _ | .int _ | .float _ | .text _ | .symbol _ | .host _ => h _

theorem allEvery_of_forall (h : ∀ t, q t) : ∀ ts : List Term, AllEvery q ts
  | [] => trivial
  | t :: ts => ⟨every_of_forall h t, allEvery_of_forall h ts⟩

end

/-! ## terms without runs -/

/-- A term in which no run of terms occupies one place. -/
def MarkerFree (t : Term) : Prop := t.Every fun s => s.isMarker = false

instance (t : Term) : Decidable t.MarkerFree := inferInstanceAs (Decidable (t.Every _))

theorem MarkerFree.isMarker (h : t.MarkerFree) : t.isMarker = false := h.here

theorem run_of_not_isMarker (h : t.isMarker = false) : t.run = [t] := by simp [run, h]

theorem MarkerFree.run (h : t.MarkerFree) : t.run = [t] := run_of_not_isMarker h.isMarker

/-- The head alone makes a run. -/
theorem isMarker_node (i : Nat) (f : Term) (xs : List Term) :
    (Term.node i f xs).isMarker = (Term.call f []).isMarker := by
  cases f with
  | magic m => cases m <;> rfl
  | _ => rfl

theorem markerFree_node {i : Nat} {f : Term} {xs : List Term} :
    (Term.node i f xs).MarkerFree ↔
      (Term.node i f xs).isMarker = false ∧ f.MarkerFree ∧ ∀ x ∈ xs, x.MarkerFree :=
  every_node

/-! ## ordinary terms -/

/-- A term without runs that occupy one place, whose argument lists have lengths that a machine
word holds. -/
def Ordinary (t : Term) : Prop :=
  t.Every fun s => s.isMarker = false ∧ s.args.length ≤ Pattern.unbounded

instance (t : Term) : Decidable t.Ordinary := inferInstanceAs (Decidable (t.Every _))

/-- A term that stands for ordinary terms, of a number that a machine word holds. -/
structure OrdinaryRun (t : Term) : Prop where
  fits : t.run.length ≤ Pattern.unbounded
  each : ∀ x ∈ t.run, x.Ordinary

instance (t : Term) : Decidable t.OrdinaryRun :=
  decidable_of_iff (t.run.length ≤ Pattern.unbounded ∧ ∀ x ∈ t.run, x.Ordinary)
    ⟨fun h => ⟨h.1, h.2⟩, fun h => ⟨h.fits, h.each⟩⟩

theorem run_marker (items : List Term) : (marker items).run = items := rfl

/-- The empty run is the only term that stands for no term. -/
theorem run_eq_nil_iff : t.run = [] ↔ (t.isMarker && t.args.isEmpty) = true := by
  unfold run
  cases t.isMarker <;> simp

theorem single?_eq_some_iff {x : Term} : t.single? = some x ↔ t.run = [x] := by
  unfold single? run
  cases t.isMarker with
  | false => simp
  | true =>
      match t.args with
      | [] => simp
      | [_] => simp
      | _ :: _ :: _ => simp

theorem Ordinary.isMarker (h : t.Ordinary) : t.isMarker = false := h.here.1

theorem Ordinary.run (h : t.Ordinary) : t.run = [t] := run_of_not_isMarker h.isMarker

theorem Ordinary.ordinaryRun (h : t.Ordinary) : t.OrdinaryRun where
  fits := by
    rw [h.run, List.length_singleton]
    decide
  each := by
    intro x hx
    rw [h.run, List.mem_singleton] at hx
    exact hx ▸ h

theorem OrdinaryRun.of_single? {x : Term} (h : t.OrdinaryRun) (hx : t.single? = some x) :
    x.Ordinary := by
  rw [single?_eq_some_iff] at hx
  exact h.each x (by simp [hx])

section Node

variable {i : Nat} {f : Term} {xs : List Term}

theorem Ordinary.head (h : (Term.node i f xs).Ordinary) : f.Ordinary := (every_node.mp h).2.1

theorem Ordinary.args (h : (Term.node i f xs).Ordinary) : ∀ x ∈ xs, x.Ordinary :=
  (every_node.mp h).2.2

theorem Ordinary.length_le (h : (Term.node i f xs).Ordinary) : xs.length ≤ Pattern.unbounded :=
  h.here.2

/-- A call of some of the arguments of an ordinary call is ordinary. -/
theorem Ordinary.call (h : (Term.node i f xs).Ordinary) {ys : List Term}
    (hlen : ys.length ≤ Pattern.unbounded) (hys : ∀ y ∈ ys, y.Ordinary) :
    (Term.call f ys).Ordinary := by
  have hm := h.isMarker
  rw [isMarker_node] at hm
  exact every_node.mpr ⟨⟨(isMarker_node _ _ _).trans hm, hlen⟩, h.head, hys⟩

end Node

end Term

/-! ## values of slots -/

namespace Size

variable {items : List Term}

/-- The value of a slot stands for the arguments it was made from. -/
theorem run_value (s : Size) (h : ∀ x ∈ items, x.isMarker = false) :
    (s.value none items).run = items := by
  match items, h with
  | [], _ => rfl
  | [x], h =>
      simp only [value]
      split
      · exact Term.run_of_not_isMarker (h x List.mem_cons_self)
      · rfl
  | _ :: _ :: _, _ => rfl

/-- The value of a slot of an ordinary call stands for ordinary terms. -/
theorem ordinaryRun_value (s : Size) {flat : Option Term}
    (hlen : items.length ≤ Pattern.unbounded) (h : ∀ x ∈ items, x.Ordinary)
    (hf : ∀ f ∈ flat, (Term.call f items).Ordinary) : (s.value flat items).OrdinaryRun := by
  have hmarker : (Term.marker items).OrdinaryRun := ⟨hlen, h⟩
  match items, hmarker, h, hf with
  | [], hmarker, _, _ => exact hmarker
  | [x], hmarker, h, _ =>
      simp only [value]
      split
      · exact (h x List.mem_cons_self).ordinaryRun
      · exact hmarker
  | x :: y :: zs, hmarker, _, hf =>
      cases flat with
      | none => exact hmarker
      | some f =>
          simp only [value]
          split
          · exact (hf f rfl).ordinaryRun
          · exact hmarker

end Size

end Termwise
