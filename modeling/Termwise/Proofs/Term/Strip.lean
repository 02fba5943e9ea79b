import Termwise.Pattern.Match

/-!
# Termwise.Proofs.Term.Strip

Structural equality is equality of terms without their identities:

* `beq_iff_strip` — `a == b` exactly when `a.strip = b.strip`;
* every question that a search asks about a term has the same answer for the
  stripped term, and every term it builds is built alike from stripped parts.
-/

namespace Termwise

theorem HostObject.beq_iff (a b : HostObject) :
    (a == b) = true ↔ a.kind = b.kind ∧ a.number = b.number := by
  change (a.kind == b.kind && a.number == b.number) = true ↔ _
  simp

namespace Term

/-! ## equality -/

theorem stripAll_eq_map (ts : List Term) : stripAll ts = ts.map strip := by
  induction ts with
  | nil => rfl
  | cons t ts ih => rw [stripAll, ih, List.map_cons]

theorem strip_text_inj (a b : Text.Window) :
    Text.Window.ofUnits a.units = Text.Window.ofUnits b.units ↔ a.units = b.units := by
  constructor
  · intro h
    have hu := congrArg Text.Window.units h
    simpa using hu
  · intro h
    rw [h]

mutual

theorem equal_iff_strip : ∀ a b : Term, equal a b = true ↔ a.strip = b.strip
  | .magic a, b => by cases b <;> simp [equal, strip]
  | .int a, b => by cases b <;> simp [equal, strip]
  | .float a, b => by cases b <;> simp [equal, strip]
  | .text a, b => by
      cases b <;> simp [equal, strip, Text.Window.beq_def, strip_text_inj]
  | .symbol a, b => by cases b <;> simp [equal, strip]
  | .host a, b => by
      cases b <;> simp [equal, strip, HostObject.beq_iff]
  | .node i f xs, b => by
      cases b with
      | node j g ys =>
          simp [equal, strip, equal_iff_strip f g, equalAll_iff_stripAll xs ys]
      | _ => simp [equal, strip]

theorem equalAll_iff_stripAll : ∀ as bs : List Term,
    equalAll as bs = true ↔ stripAll as = stripAll bs
  | [], bs => by cases bs <;> simp [equalAll, stripAll]
  | a :: as, bs => by
      cases bs with
      | nil => simp [equalAll, stripAll]
      | cons b bs =>
          simp [equalAll, stripAll, equal_iff_strip a b, equalAll_iff_stripAll as bs]

end

/-- Structural equality is equality without identities. -/
theorem beq_iff_strip (a b : Term) : (a == b) = true ↔ a.strip = b.strip := equal_iff_strip a b

mutual

@[simp]
theorem strip_strip : ∀ t : Term, t.strip.strip = t.strip
  | .text s => by simp [strip]
  | .node _ f xs => by simp [strip, strip_strip f, stripAll_stripAll xs]
  | .magic _ | .int _ | .float _ | .symbol _ | .host _ => rfl

theorem stripAll_stripAll : ∀ ts : List Term, stripAll (stripAll ts) = stripAll ts
  | [] => rfl
  | t :: ts => by simp [stripAll, strip_strip t, stripAll_stripAll ts]

end

/-- Equal terms may take each other's place in an equality. -/
theorem beq_congr {a a' b b' : Term} (ha : a.strip = a'.strip) (hb : b.strip = b'.strip) :
    (a == b) = (a' == b') := by
  rw [Bool.eq_iff_iff, beq_iff_strip, beq_iff_strip, ha, hb]

/-! ## questions about a term -/

theorem isMarker_strip (t : Term) : t.strip.isMarker = t.isMarker := by
  cases t with
  | node i f xs =>
      cases f with
      | magic m => cases m <;> rfl
      | _ => rfl
  | _ => rfl

theorem kind_strip (t : Term) : t.strip.kind = t.kind := by
  cases t <;> rfl

theorem isSymbol_strip (t : Term) (s : Symbol) : t.strip.isSymbol s = t.isSymbol s := by
  cases t <;> rfl

theorem args_strip (t : Term) : t.strip.args = t.args.map strip := by
  cases t with
  | node i f xs => simp [strip, args, stripAll_eq_map]
  | _ => rfl

theorem run_strip (t : Term) : t.strip.run = t.run.map strip := by
  unfold run
  rw [isMarker_strip, args_strip]
  split <;> simp

theorem single?_strip (t : Term) : t.strip.single? = t.single?.map strip := by
  unfold single?
  rw [isMarker_strip, args_strip]
  cases t.isMarker with
  | false => simp
  | true =>
      match t.args with
      | [] => rfl
      | [_] => rfl
      | _ :: _ :: _ => rfl

theorem hasType_strip (type : Option Term) (t : Term) :
    t.strip.hasType type = t.hasType type := by
  cases type with
  | none => rfl
  | some head =>
      cases t with
      | node i f xs =>
          simp only [strip, hasType]
          exact beq_congr (strip_strip f) rfl
      | _ => rfl

theorem headAttributes_strip (attrs : Symbol → Attributes) (t : Term) :
    t.strip.headAttributes attrs = t.headAttributes attrs := by
  cases t with
  | node i f xs => cases f <;> rfl
  | _ => rfl

theorem boundLength_congr {flat flat' : Option Term} {v v' : Term}
    (hf : flat.map strip = flat'.map strip) (hv : v.strip = v'.strip) :
    v.boundLength flat = v'.boundLength flat' := by
  have hm : v.isMarker = v'.isMarker := by rw [← isMarker_strip v, hv, isMarker_strip]
  have hl : v.args.length = v'.args.length := by
    have h := congrArg (fun t => t.args.length) hv
    simpa [args_strip] using h
  unfold boundLength
  rw [hm, hl]
  cases v'.isMarker with
  | true => rfl
  | false =>
      cases v <;> cases v' <;> simp [strip] at hv <;>
        cases flat <;> cases flat' <;> simp at hf <;> try rfl
      case node.node.some.some i g xs j h ys f f' =>
        simp only [args] at hl
        simp only [Bool.false_eq_true, if_false, hl, beq_congr hv.1 hf]

/-! ## building terms -/

theorem strip_call (head : Term) (xs : List Term) :
    (call head xs).strip = call head.strip (xs.map strip) := by
  simp [call, strip, stripAll_eq_map]

theorem strip_marker (xs : List Term) : (marker xs).strip = marker (xs.map strip) := by
  rw [marker, strip_call]
  rfl

end Term

/-! ## sizes and values of slots -/

theorem Size.value_congr {s : Size} {flat flat' : Option Term} {xs ys : List Term}
    (hf : flat.map Term.strip = flat'.map Term.strip) (h : xs.map Term.strip = ys.map Term.strip) :
    (s.value flat xs).strip = (s.value flat' ys).strip := by
  match xs, ys, h with
  | [], [], _ => rfl
  | [x], [y], h =>
      have hx : x.strip = y.strip := by simpa using h
      simp only [value]
      split
      · exact hx
      · simp [Term.strip_marker, hx]
  | [_], _ :: _ :: _, h => simp at h
  | _ :: _ :: _, [_], h => simp at h
  | x :: x' :: xs, y :: y' :: ys, h =>
      cases flat <;> cases flat' <;> simp at hf
      · simp only [value, Term.strip_marker, h]
      · simp only [value]
        split
        · rw [Term.strip_call, Term.strip_call, hf, h]
        · rw [Term.strip_marker, Term.strip_marker, h]

/-! ## bindings -/

namespace Bindings

/-- The same names, bound to terms with identities removed. -/
def strip (b : Bindings) : Bindings := ⟨b.entries.map fun e => (e.1, e.2.strip)⟩

theorem get?_strip (b : Bindings) (name : Symbol) :
    b.strip.get? name = (b.get? name).map Term.strip := by
  simp only [get?, strip, List.find?_map, Option.map_map]
  rfl

theorem get?_congr {b b' : Bindings} (h : b.strip = b'.strip) (name : Symbol) :
    (b.get? name).map Term.strip = (b'.get? name).map Term.strip := by
  rw [← get?_strip, h, get?_strip]

theorem strip_push (b : Bindings) (name : Symbol) (value : Term) :
    (b.push name value).strip = b.strip.push name value.strip := by
  simp [push, strip]

end Bindings

namespace Term

/-! ## substitution -/

mutual

theorem substitute?_strip (b : Bindings) : ∀ t : Term,
    t.strip.substitute? b.strip = (t.substitute? b).map strip
  | .symbol s => by simp [strip, substitute?, Bindings.get?_strip]
  | .node i f xs => by
      simp only [strip, substitute?, substitute?_strip b f, substituteArgs?_strip b xs,
        spliceArgs_strip b xs]
      cases f.substitute? b with
      | some g => simp [strip_call]
      | none => cases substituteArgs? b xs <;> simp [strip_call]
  | .magic _ | .int _ | .float _ | .text _ | .host _ => rfl

theorem substituteArgs?_strip (b : Bindings) : ∀ ts : List Term,
    substituteArgs? b.strip (stripAll ts) = (substituteArgs? b ts).map (List.map strip)
  | [] => rfl
  | t :: ts => by
      simp only [stripAll, substituteArgs?, substitute?_strip b t, substituteArgs?_strip b ts,
        spliceArgs_strip b ts]
      cases t.substitute? b with
      | some new => simp [run_strip]
      | none => cases substituteArgs? b ts <;> simp

theorem spliceArgs_strip (b : Bindings) : ∀ ts : List Term,
    spliceArgs b.strip (stripAll ts) = (spliceArgs b ts).map strip
  | [] => rfl
  | t :: ts => by
      simp only [stripAll, spliceArgs, substitute?_strip b t, spliceArgs_strip b ts]
      cases t.substitute? b <;> simp [run_strip]

end

theorem substitute_strip (b : Bindings) (t : Term) :
    t.strip.substitute b.strip = (t.substitute b).strip := by
  unfold substitute
  rw [substitute?_strip]
  cases t.substitute? b <;> rfl

theorem substitute_congr {b b' : Bindings} {t t' : Term} (hb : b.strip = b'.strip)
    (ht : t.strip = t'.strip) : (t.substitute b).strip = (t'.substitute b').strip := by
  rw [← substitute_strip, hb, ht, substitute_strip]

end Term

end Termwise
