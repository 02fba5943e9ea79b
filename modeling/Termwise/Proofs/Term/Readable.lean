import Termwise.Proofs.Term.Ordinary
import Termwise.Proofs.Term.Strip
import Termwise.Proofs.Text.Quoted
import Termwise.Term.Write

/-!
# Termwise.Proofs.Term.Readable

The text of a term says which term it is.  A text is an opening and argument lists behind it:

```text
f(a)(b, c)     bare opening f, then (a) and (b, c)
{a, b}(c)      opening {a, b}, then (c)
(1)(a)         opening (1), then (a)
```

The first character tells the three openings apart, and every part tells where it ends.

* `Atom.cancel` — texts of atoms with a delimiter behind them are told apart;
* `Opening.cancel`, `group_cancel` — so are openings and argument lists whose items are;
* `eq_of_toText_eq` — terms of one text are equal.
-/

namespace Termwise

/-! ## words -/

/-- The characters that stand around and between the parts of a text. -/
def isDelimiter (c : Char) : Bool := ['(', ')', '\x7b', '\x7d', ',', ' ', '"'].contains c

/-- Whether a text reads as a word: not empty, without delimiters, and not like a number. -/
def IsWord (name : String) : Prop :=
  name.toList ≠ [] ∧ (∀ c ∈ name.toList.head?, c.isDigit = false ∧ c ≠ '-') ∧
    ∀ c ∈ name.toList, isDelimiter c = false

theorem isDelimiter_of_isAlphanum {c : Char} (h : c.isAlphanum = true) : isDelimiter c = false := by
  by_contra hd
  simp only [isDelimiter, List.contains_eq_mem, List.mem_cons, List.not_mem_nil, or_false,
    Bool.not_eq_false, decide_eq_true_eq] at hd
  rcases hd with rfl | rfl | rfl | rfl | rfl | rfl | rfl <;> exact absurd h (by decide)

theorem isDigit_of_isAlpha {c : Char} (h : c.isAlpha = true) : c.isDigit = false := by
  simp only [Char.isAlpha, Char.isUpper, Char.isLower, Char.isDigit, Bool.or_eq_true,
    Bool.and_eq_true, Bool.and_eq_false_iff, decide_eq_true_eq, decide_eq_false_iff_not, ge_iff_le,
    UInt32.le_iff_toNat_le, Char.reduceVal, UInt32.reduceToNat] at h ⊢
  omega

/-- Letters and digits, a letter first, are a word. -/
theorem isWord_of_isAlphanum {name : String} {c : Char} {rest : List Char}
    (h : name.toList = c :: rest) (hc : c.isAlpha = true)
    (hrest : ∀ d ∈ rest, d.isAlphanum = true) : IsWord name := by
  refine ⟨by simp [h], fun d hd => ?_, fun d hd => isDelimiter_of_isAlphanum ?_⟩
  · obtain rfl : c = d := by simpa [h] using hd
    refine ⟨isDigit_of_isAlpha hc, ?_⟩
    rintro rfl
    exact absurd hc (by decide)
  · rcases List.mem_cons.1 (h ▸ hd) with rfl | hd
    · simp [Char.isAlphanum, hc]
    · exact hrest d hd

/-- Symbols that are told by their names: words that no magic value is named by, a different one for
each symbol. -/
structure Legible (symbols : Symbol → Prop) : Prop where
  word : ∀ s, symbols s → IsWord s.name
  free : ∀ s, symbols s → ∀ m : Magic, s.name ≠ m.name
  distinct : ∀ s t, symbols s → symbols t → s.name = t.name → s = t

namespace Term

/-- Whether a term is no float, no host object and no symbol but one of the given ones. -/
def Readable (symbols : Symbol → Prop) : Term → Prop
  | .symbol s => symbols s
  | .float _ | .host _ => False
  | .magic _ | .int _ | .text _ | .node .. => True

/-! ## what stands behind a part -/

/-- Whether a text is over or goes on with a delimiter. -/
def Delimited (r : List Char) : Prop := ∀ c ∈ r.head?, isDelimiter c = true

/-- Whether a text is over or goes on with what ends an item. -/
def Stops (r : List Char) : Prop := ∀ c ∈ r.head?, c = ',' ∨ c = ')' ∨ c = '\x7d'

theorem Stops.delimited {r : List Char} (h : Stops r) : Delimited r := by
  intro c hc
  rcases h c hc with rfl | rfl | rfl <;> rfl

/-! ## atoms -/

theorem isWord_name (m : Magic) : IsWord m.name := by
  cases m <;> simp [IsWord, Magic.name, isDelimiter]

theorem name_injective {m n : Magic} (h : m.name = n.name) : m = n := by
  cases m <;> cases n <;> first | rfl | exact absurd h (by decide)

theorem mem_chars_int {n : Int64} {c : Char} (h : c ∈ (Term.int n).chars) :
    c.isDigit = true ∨ c = '-' := by
  rw [chars, Int.toString_eq_repr, Int.repr_eq_if] at h
  split at h
  · rw [Nat.repr_eq_ofList_toDigits, String.toList_ofList] at h
    exact .inl (Nat.isDigit_of_mem_toDigits (by decide) (by decide) h)
  · rw [Nat.repr_eq_ofList_toDigits, String.toList_append, List.mem_append] at h
    rcases h with h | h
    · exact .inr (by simpa using h)
    · rw [String.toList_ofList] at h
      exact .inl (Nat.isDigit_of_mem_toDigits (by decide) (by decide) h)

/-- No word reads as a number. -/
theorem toList_ne_chars_int {name : String} (h : IsWord name) (n : Int64) :
    name.toList ≠ (Term.int n).chars := by
  intro he
  obtain ⟨hne, hhead, -⟩ := h
  cases hl : name.toList with
  | nil => exact hne hl
  | cons c cs =>
      obtain ⟨hdigit, hminus⟩ := hhead c (by simp [hl])
      rcases mem_chars_int (n := n) (c := c) (by simp [← he, hl]) with hc | hc
      · simp [hc] at hdigit
      · exact hminus hc

theorem chars_int_ne_nil (n : Int64) : (Term.int n).chars ≠ [] := by
  rw [chars, Int.toString_eq_repr, Int.repr_eq_if, Ne, String.toList_eq_nil_iff]
  split
  · exact Nat.repr_ne_empty
  · simp

/-- The atoms written without quotes. -/
def IsPlain : Term → Prop
  | .magic _ | .int _ | .symbol _ => True
  | .float _ | .text _ | .host _ | .node .. => False

section

variable {symbols : Symbol → Prop} (legible : Legible symbols)

include legible

theorem isDelimiter_of_mem_chars {a : Term} (ha : a.Readable symbols) (plain : a.IsPlain) {c : Char}
    (hc : c ∈ a.chars) : isDelimiter c = false := by
  cases a with
  | magic m => exact (isWord_name m).2.2 c hc
  | symbol s => exact (legible.word s ha).2.2 c hc
  | int n =>
      rcases mem_chars_int hc with h | rfl
      · exact isDelimiter_of_isAlphanum (by simp [Char.isAlphanum, h])
      · rfl
  | _ => exact plain.elim

theorem eq_of_chars_eq {a b : Term} (ha : a.Readable symbols) (hb : b.Readable symbols)
    (plaina : a.IsPlain) (plainb : b.IsPlain) (h : a.chars = b.chars) : a = b := by
  cases a with
  | magic m =>
      cases b with
      | magic n => rw [name_injective (String.toList_injective h)]
      | int n => exact absurd h (toList_ne_chars_int (isWord_name m) n)
      | symbol s => exact absurd (String.toList_injective h).symm (legible.free s hb m)
      | _ => exact plainb.elim
  | int n =>
      cases b with
      | magic m => exact absurd h.symm (toList_ne_chars_int (isWord_name m) n)
      | int m =>
          have hnm : n.toInt = m.toInt := by
            rw [← Int.repr_inj, ← Int.toString_eq_repr, ← Int.toString_eq_repr]
            exact String.toList_injective h
          rw [Int64.toInt_inj.1 hnm]
      | symbol s => exact absurd h.symm (toList_ne_chars_int (legible.word s hb) n)
      | _ => exact plainb.elim
  | symbol s =>
      cases b with
      | magic m => exact absurd (String.toList_injective h) (legible.free s ha m)
      | int n => exact absurd h (toList_ne_chars_int (legible.word s ha) n)
      | symbol t => rw [legible.distinct s t ha hb (String.toList_injective h)]
      | _ => exact plainb.elim
  | _ => exact plaina.elim

theorem chars_ne_nil {a : Term} (ha : a.Readable symbols) (plain : a.IsPlain) : a.chars ≠ [] := by
  cases a with
  | magic m => exact (isWord_name m).1
  | int n => exact chars_int_ne_nil n
  | symbol s => exact (legible.word s ha).1
  | _ => exact plain.elim

theorem exists_cons_chars_of_plain {a : Term} (ha : a.Readable symbols) (plain : a.IsPlain) :
    ∃ c cs, a.chars = c :: cs ∧ isDelimiter c = false := by
  obtain ⟨c, cs, hc⟩ := List.exists_cons_of_ne_nil (chars_ne_nil legible ha plain)
  exact ⟨c, cs, hc, isDelimiter_of_mem_chars legible ha plain (by simp [hc])⟩

omit legible in
theorem plain_or_text {a : Term} (ha : a.Readable symbols) (atom : a.kind ≠ .expr) :
    a.IsPlain ∨ ∃ w, a = .text w := by
  cases a with
  | magic | int | symbol => exact .inl trivial
  | text w => exact .inr ⟨w, rfl⟩
  | float | host => exact ha.elim
  | node => exact absurd rfl atom

/-- The one delimiter that an atom may start with is a quote. -/
theorem exists_cons_chars {a : Term} (ha : a.Readable symbols) (atom : a.kind ≠ .expr) :
    ∃ c cs, a.chars = c :: cs ∧ (isDelimiter c = false ∨ c = '"') := by
  rcases plain_or_text ha atom with plain | ⟨w, rfl⟩
  · obtain ⟨c, cs, hc, hd⟩ := exists_cons_chars_of_plain legible ha plain
    exact ⟨c, cs, hc, .inl hd⟩
  · exact ⟨'"', _, Text.Quoted.toList_ofUnits _, .inr rfl⟩

/-- No atom starts with a bracket. -/
theorem append_ne_bracket {a : Term} (ha : a.Readable symbols) (atom : a.kind ≠ .expr) {c : Char}
    (hc : c = '(' ∨ c = '\x7b') (r s : List Char) : a.chars ++ r ≠ c :: s := by
  intro h
  obtain ⟨d, ds, hd, hdelim⟩ := exists_cons_chars legible ha atom
  rw [hd] at h
  rw [(List.cons.inj h).1] at hdelim
  rcases hc with rfl | rfl <;> revert hdelim <;> decide

/-- A text in quotes reads as no other atom. -/
theorem append_ne_text {a : Term} (ha : a.Readable symbols) (plain : a.IsPlain) (w : Text.Window)
    (r s : List Char) : a.chars ++ r ≠ (Term.text w).chars ++ s := by
  intro h
  obtain ⟨c, cs, hc, hd⟩ := exists_cons_chars_of_plain legible ha plain
  rw [hc, chars, Text.Quoted.toList_ofUnits] at h
  rw [(List.cons.inj h).1] at hd
  exact absurd hd (by decide)

/-- Texts of atoms with a delimiter behind them are told apart. -/
theorem atom_cancel {a b : Term} (ha : a.Readable symbols) (hb : b.Readable symbols)
    (atoma : a.kind ≠ .expr) (atomb : b.kind ≠ .expr) {r s : List Char} (hr : Delimited r)
    (hs : Delimited s) (h : a.chars ++ r = b.chars ++ s) : a.strip = b.strip ∧ r = s := by
  rcases plain_or_text ha atoma with plaina | ⟨v, rfl⟩
  · rcases plain_or_text hb atomb with plainb | ⟨w, rfl⟩
    · obtain ⟨hab, hrs⟩ := Text.run_cancel (p := fun c => !isDelimiter c)
        (fun c hc => by simp [isDelimiter_of_mem_chars legible ha plaina hc])
        (fun c hc => by simp [isDelimiter_of_mem_chars legible hb plainb hc])
        (fun c hc => by simp [hr c hc]) (fun c hc => by simp [hs c hc]) h
      exact ⟨by rw [eq_of_chars_eq legible ha hb plaina plainb hab], hrs⟩
    · exact absurd h (append_ne_text legible ha plaina w r s)
  · rcases plain_or_text hb atomb with plainb | ⟨w, rfl⟩
    · exact absurd h.symm (append_ne_text legible hb plainb v s r)
    · obtain ⟨hunits, hrs⟩ := Text.Quoted.quoted_cancel h
      exact ⟨by rw [strip, strip, hunits], hrs⟩

end

/-! ## openings and argument lists -/

/-- What the text of a term opens with. -/
inductive Opening where
  /-- An atom. -/
  | bare (atom : Term)
  /-- The items of a call of a symbol named List. -/
  | braces (head : Symbol) (items : List Term)
  /-- An atom in parentheses, which is called. -/
  | wrapped (atom : Term)

namespace Opening

/-- The characters of an opening. -/
def chars : Opening → List Char
  | bare a => a.chars
  | braces _ items => '\x7b' :: charsAll items ++ ['\x7d']
  | wrapped a => '(' :: a.chars ++ [')']

/-- The term of an opening. -/
def term : Opening → Term
  | bare a | wrapped a => a
  | braces head items => app head items

/-- The items in an opening. -/
def items : Opening → List Term
  | braces _ items => items
  | bare _ | wrapped _ => []

/-- Whether an opening is the opening of a readable term. -/
def Fits (symbols : Symbol → Prop) : Opening → Prop
  | bare a | wrapped a => a.kind ≠ .expr ∧ a.Readable symbols
  | braces head items =>
    symbols head ∧ head.name = "List" ∧ ∀ x ∈ items, x.Every (Readable symbols)

end Opening

/-- The characters of an argument list. -/
def group (args : List Term) : List Char := '(' :: charsAll args ++ [')']

/-- The opening of a text and the argument lists behind it. -/
def split : Term → Opening × List (List Term)
  | .node _ (.symbol s) args =>
    if s.name = "List" then (.braces s args, []) else (.bare (.symbol s), [args])
  | .node _ (.magic m) args => (.bare (.magic m), [args])
  | .node _ (.node i f xs) args => ((split (.node i f xs)).1, (split (.node i f xs)).2 ++ [args])
  | .node _ head args => (.wrapped head, [args])
  | t => (.bare t, [])

/-- An opening, called with one argument list after the other. -/
def assemble (o : Opening) (groups : List (List Term)) : Term := groups.foldl call o.term

theorem chars_split (t : Term) : t.chars = t.split.1.chars ++ t.split.2.flatMap group := by
  fun_induction split t with
  | case1 i args s hs => simp [chars, Opening.chars, isListHead, hs]
  | case2 i args s hs => simp [chars, Opening.chars, isListHead, bareHead, hs, group]
  | case3 i args m => simp [chars, Opening.chars, isListHead, bareHead, group]
  | case4 i args j g xs ih =>
      rw [chars, if_neg (by simp [isListHead]), if_pos (by rfl), ih]
      simp [group]
  | case5 i head args hsym hmag hnode =>
      cases head with
      | symbol | magic | node => simp_all
      | _ => simp [chars, Opening.chars, isListHead, bareHead, group]
  | case6 t ht => simp [Opening.chars]

theorem strip_split (t : Term) : t.strip = (assemble t.split.1 t.split.2).strip := by
  fun_induction split t with
  | case1 i args s hs => rfl
  | case2 i args s hs => rfl
  | case3 i args m => rfl
  | case4 i args j g xs ih =>
      rw [assemble, List.foldl_append, strip, ih]
      rfl
  | case5 i head args hsym hmag hnode => rfl
  | case6 t ht => rfl

theorem fits_split {symbols : Symbol → Prop} (t : Term) (ht : t.Every (Readable symbols)) :
    t.split.1.Fits symbols ∧ ∀ xs ∈ t.split.2, ∀ x ∈ xs, x.Every (Readable symbols) := by
  fun_induction split t with
  | case1 i args s hs =>
      obtain ⟨-, hhead, hargs⟩ := every_node.1 ht
      exact ⟨⟨hhead, hs, hargs⟩, by simp⟩
  | case2 i args s hs =>
      obtain ⟨-, hhead, hargs⟩ := every_node.1 ht
      exact ⟨⟨by simp [kind], hhead⟩, by simpa using hargs⟩
  | case3 i args m =>
      obtain ⟨-, hhead, hargs⟩ := every_node.1 ht
      exact ⟨⟨by simp [kind], hhead⟩, by simpa using hargs⟩
  | case4 i args j g xs ih =>
      obtain ⟨-, hhead, hargs⟩ := every_node.1 ht
      obtain ⟨hopening, hgroups⟩ := ih hhead
      refine ⟨hopening, fun ys hys => ?_⟩
      rcases List.mem_append.1 hys with hys | hys
      · exact hgroups ys hys
      · rw [List.mem_singleton.1 hys]
        exact hargs
  | case5 i head args hsym hmag hnode =>
      obtain ⟨-, hhead, hargs⟩ := every_node.1 ht
      refine ⟨⟨?_, hhead.here⟩, by simpa using hargs⟩
      cases head with
      | node j g xs => exact (hnode j g xs rfl).elim
      | _ => simp [kind]
  | case6 t hsym hmag hcall htn =>
      refine ⟨⟨?_, ht.here⟩, by simp⟩
      cases t with
      | node j g xs => exact (htn j g xs rfl).elim
      | _ => simp [kind]

/-! ## texts that tell their terms -/

section

variable {symbols : Symbol → Prop} (legible : Legible symbols)

/-- Whether the text of a term, as an item, tells the term. -/
def Told (symbols : Symbol → Prop) (t : Term) : Prop :=
  ∀ (u : Term) (r s : List Char), u.Every (Readable symbols) → Stops r → Stops s →
    t.chars ++ r = u.chars ++ s → t.strip = u.strip ∧ r = s

include legible

/-- No item is empty, and none starts as if it had ended. -/
theorem not_stops_chars {t : Term} (ht : t.Every (Readable symbols)) (r : List Char) :
    ¬ Stops (t.chars ++ r) := by
  obtain ⟨hopening, -⟩ := fits_split t ht
  rw [chars_split]
  intro h
  cases ho : t.split.1 with
  | bare a =>
      rw [ho] at h hopening
      obtain ⟨c, cs, hc, hd⟩ := exists_cons_chars legible hopening.2 hopening.1
      have := h c (by simp [Opening.chars, hc])
      rcases this with rfl | rfl | rfl <;> revert hd <;> decide
  | braces head items =>
      rw [ho] at h
      have := h '\x7b' (by simp [Opening.chars])
      revert this
      decide
  | wrapped a =>
      rw [ho] at h
      have := h '(' (by simp [Opening.chars])
      revert this
      decide

omit legible in
theorem charsAll_cons (x : Term) (xs : List Term) :
    charsAll (x :: xs) = x.chars ++ xs.flatMap fun y => ',' :: ' ' :: y.chars := by
  induction xs generalizing x with
  | nil => simp [charsAll]
  | cons y ys ih => rw [charsAll, ih y] <;> simp

omit legible in
theorem map_strip_eq {xs ys : List Term} (h : List.Forall₂ (fun x y => x.strip = y.strip) xs ys) :
    xs.map strip = ys.map strip := by
  induction h with
  | nil => rfl
  | cons hxy _ ih => rw [List.map_cons, List.map_cons, hxy, ih]

/-- What closes the items of a call. -/
def Closes (r : List Char) : Prop := ∃ c rest, r = c :: rest ∧ (c = ')' ∨ c = '\x7d')

omit legible in
theorem Closes.stops {r : List Char} (h : Closes r) : Stops r := by
  obtain ⟨c, rest, rfl, hc⟩ := h
  rintro _ ⟨⟩
  exact .inr hc

/-- Items up to a closing bracket are told apart. -/
theorem charsAll_cancel {xs ys : List Term} {r s : List Char} (told : ∀ x ∈ xs, Told symbols x)
    (hxs : ∀ x ∈ xs, x.Every (Readable symbols)) (hys : ∀ y ∈ ys, y.Every (Readable symbols))
    (hr : Closes r) (hs : Closes s) (h : charsAll xs ++ r = charsAll ys ++ s) :
    xs.map strip = ys.map strip ∧ r = s := by
  match xs, ys with
  | [], [] => simpa [charsAll] using h
  | [], y :: ys =>
      rw [charsAll_cons, List.append_assoc] at h
      exact absurd (h.subst (motive := Stops) hr.stops)
        (not_stops_chars legible (hys y (by simp)) _)
  | x :: xs, [] =>
      rw [charsAll_cons, List.append_assoc] at h
      exact absurd (h.symm.subst (motive := Stops) hs.stops)
        (not_stops_chars legible (hxs x (by simp)) _)
  | x :: xs, y :: ys =>
      rw [charsAll_cons, charsAll_cons, List.append_assoc, List.append_assoc] at h
      have comma : ∀ (z : Term) (t : List Char), Stops ((',' :: ' ' :: z.chars) ++ t) := by
        rintro z t _ ⟨⟩
        exact .inl rfl
      have behind : ∀ (zs : List Term) (t : List Char), Closes t →
          Stops ((zs.flatMap fun z => ',' :: ' ' :: z.chars) ++ t) := by
        intro zs t ht
        cases zs with
        | nil => exact ht.stops
        | cons z zs => rw [List.flatMap_cons, List.append_assoc]; exact comma z _
      obtain ⟨hxy, hrest⟩ :=
        told x (by simp) y _ _ (hys y (by simp)) (behind xs r hr) (behind ys s hs) h
      obtain ⟨htail, hrs⟩ := Text.flatMap_cancel (R := fun x y : Term => x.strip = y.strip)
        Closes Stops (by rintro z t ⟨c, rest, ⟨⟩, hc⟩; revert hc; decide)
        (fun t ht => ht.stops) comma
        (fun x hx y hy t u ht hu htu => told x (List.mem_cons_of_mem _ hx) y t u
          (hys y (List.mem_cons_of_mem _ hy)) ht hu (by simpa using htu))
        hr hs hrest
      exact ⟨by rw [List.map_cons, List.map_cons, hxy, map_strip_eq htail], hrs⟩

/-- Argument lists are told apart when their items are. -/
theorem group_cancel {xs ys : List Term} {r s : List Char} (told : ∀ x ∈ xs, Told symbols x)
    (hxs : ∀ x ∈ xs, x.Every (Readable symbols)) (hys : ∀ y ∈ ys, y.Every (Readable symbols))
    (h : group xs ++ r = group ys ++ s) : xs.map strip = ys.map strip ∧ r = s := by
  have hitems : charsAll xs ++ ')' :: r = charsAll ys ++ ')' :: s := by simpa [group] using h
  obtain ⟨hxy, hrs⟩ := charsAll_cancel legible told hxs hys ⟨_, _, rfl, .inl rfl⟩
    ⟨_, _, rfl, .inl rfl⟩ hitems
  exact ⟨hxy, (List.cons.inj hrs).2⟩

/-- Openings are told apart when the items in them are. -/
theorem Opening.cancel {o p : Opening} {r s : List Char} (told : ∀ x ∈ o.items, Told symbols x)
    (ho : o.Fits symbols) (hp : p.Fits symbols) (hr : Delimited r) (hs : Delimited s)
    (h : o.chars ++ r = p.chars ++ s) : o.term.strip = p.term.strip ∧ r = s := by
  cases o with
  | bare a =>
      cases p with
      | bare b => exact atom_cancel legible ho.2 hp.2 ho.1 hp.1 hr hs h
      | braces | wrapped => exact absurd h (append_ne_bracket legible ho.2 ho.1 (by simp) r _)
  | braces f xs =>
      cases p with
      | bare b => exact absurd h.symm (append_ne_bracket legible hp.2 hp.1 (by simp) s _)
      | braces g ys =>
          have hitems : charsAll xs ++ '\x7d' :: r = charsAll ys ++ '\x7d' :: s := by
            simpa [chars] using h
          have toldxs : ∀ x ∈ xs, Told symbols x := told
          obtain ⟨hxy, hrs⟩ := charsAll_cancel legible toldxs ho.2.2 hp.2.2 ⟨_, _, rfl, .inr rfl⟩
            ⟨_, _, rfl, .inr rfl⟩ hitems
          have hfg : f = g := legible.distinct f g ho.1 hp.1 (by rw [ho.2.1, hp.2.1])
          refine ⟨?_, (List.cons.inj hrs).2⟩
          rw [term, term, app, app, strip_call, strip_call, hfg, hxy]
      | wrapped b => exact absurd (List.cons.inj h).1 (by decide)
  | wrapped a =>
      cases p with
      | bare b => exact absurd h.symm (append_ne_bracket legible hp.2 hp.1 (by simp) s _)
      | braces g ys => exact absurd (List.cons.inj h).1 (by decide)
      | wrapped b =>
          have hatom : a.chars ++ ')' :: r = b.chars ++ ')' :: s := by simpa [chars] using h
          have closed : ∀ t, Delimited (')' :: t) := by rintro t _ ⟨⟩; rfl
          obtain ⟨hab, hrs⟩ :=
            atom_cancel legible ho.2 hp.2 ho.1 hp.1 (closed r) (closed s) hatom
          exact ⟨hab, (List.cons.inj hrs).2⟩

omit legible in
theorem strip_foldl_call {gs hs : List (List Term)}
    (hgs : List.Forall₂ (fun xs ys : List Term => xs.map strip = ys.map strip) gs hs) :
    ∀ {f g : Term}, f.strip = g.strip → (gs.foldl call f).strip = (hs.foldl call g).strip := by
  induction hgs with
  | nil => exact id
  | cons hxy _ ih =>
      intro f g hfg
      exact ih (by rw [strip_call, strip_call, hfg, hxy])

/-- A term is told by its text when all items in the text are. -/
theorem told_of_split {t : Term} (ht : t.Every (Readable symbols))
    (hopening : ∀ x ∈ t.split.1.items, Told symbols x)
    (hgroups : ∀ xs ∈ t.split.2, ∀ x ∈ xs, Told symbols x) : Told symbols t := by
  intro u r s hu hr hs h
  obtain ⟨hto, htg⟩ := fits_split t ht
  obtain ⟨huo, hug⟩ := fits_split u hu
  have delimited : ∀ (gs : List (List Term)) (z : List Char), Stops z →
      Delimited (gs.flatMap group ++ z) := by
    intro gs z hz
    cases gs with
    | nil => exact hz.delimited
    | cons xs gs => rintro _ ⟨⟩; rfl
  rw [chars_split t, chars_split u, List.append_assoc, List.append_assoc] at h
  obtain ⟨hterm, hrest⟩ :=
    Opening.cancel legible hopening hto huo (delimited _ r hr) (delimited _ s hs) h
  obtain ⟨hlists, hrs⟩ := Text.flatMap_cancel
    (R := fun xs ys : List Term => xs.map strip = ys.map strip) Stops
    (fun _ => True) (fun xs z hz => by have := hz '(' rfl; revert this; decide)
    (fun _ _ => trivial) (fun _ _ => trivial)
    (fun xs hxs ys hys _ _ _ _ => group_cancel legible (hgroups xs hxs) (htg xs hxs) (hug ys hys))
    hr hs hrest
  exact ⟨by rw [strip_split t, strip_split u]; exact strip_foldl_call hlists hterm, hrs⟩

end

mutual

/-- The items in a readable text are told. -/
theorem told_items {symbols : Symbol → Prop} (legible : Legible symbols) :
    ∀ t : Term, t.Every (Readable symbols) →
      (∀ x ∈ t.split.1.items, Told symbols x) ∧ ∀ xs ∈ t.split.2, ∀ x ∈ xs, Told symbols x
  | .node i head args, ht => by
      obtain ⟨-, hhead, hargs⟩ := every_node.1 ht
      have toldargs := told_all legible args hargs
      have ih := told_items legible head hhead
      cases head with
      | symbol s =>
          by_cases hs : s.name = "List"
          · simpa [split, hs, Opening.items] using toldargs
          · simpa [split, hs, Opening.items] using toldargs
      | node j g xs =>
          refine ⟨ih.1, fun ys hys => ?_⟩
          rcases List.mem_append.1 hys with hys | hys
          · exact ih.2 ys hys
          · rw [List.mem_singleton.1 hys]
            exact toldargs
      | _ => simpa [split, Opening.items] using toldargs
  | .magic _, _ | .int _, _ | .float _, _ | .text _, _ | .symbol _, _ | .host _, _ => by
      simp [split, Opening.items]

theorem told_all {symbols : Symbol → Prop} (legible : Legible symbols) :
    ∀ ts : List Term, (∀ t ∈ ts, t.Every (Readable symbols)) → ∀ t ∈ ts, Told symbols t
  | [], _ => by simp
  | t :: ts, h => by
      have ht := h t (by simp)
      obtain ⟨hopening, hgroups⟩ := told_items legible t ht
      have rest := told_all legible ts fun u hu => h u (List.mem_cons_of_mem _ hu)
      exact List.forall_mem_cons.2 ⟨told_of_split legible ht hopening hgroups, rest⟩

end

/-- The text form is unambiguous: of terms made of magic values, integers, strings of any units,
symbols told by their names, and calls, those of one text are equal. -/
theorem beq_of_toText_eq {symbols : Symbol → Prop} (legible : Legible symbols) {t u : Term}
    (ht : t.Every (Readable symbols)) (hu : u.Every (Readable symbols)) (h : t.toText = u.toText) :
    (t == u) = true := by
  have hchars : t.chars ++ [] = u.chars ++ [] := by
    rw [List.append_nil, List.append_nil]
    simpa [toText] using congrArg String.toList h
  obtain ⟨hopening, hgroups⟩ := told_items legible t ht
  have stops : Stops [] := by simp [Stops]
  have told := told_of_split legible ht hopening hgroups
  exact (beq_iff_strip t u).2 (told u [] [] hu stops stops hchars).1

/-- A symbol that is told by its name from the head of lists. -/
def sample : Symbol := ⟨99, "f"⟩

theorem legible_sample : Legible fun s => s = .list ∨ s = sample where
  word := by
    rintro s (rfl | rfl)
    · exact isWord_of_isAlphanum (show _ = ['L', 'i', 's', 't'] from rfl) (by decide) (by simp)
    · exact isWord_of_isAlphanum (show _ = ['f'] from rfl) (by decide) (by simp)
  free := by rintro s (rfl | rfl) m <;> cases m <;> decide
  distinct := by rintro s t (rfl | rfl) (rfl | rfl) <;> decide

/-- A list of a call and of a string that ends in half a surrogate pair, which is called itself, on
two sets of nodes. -/
theorem beq_of_toText_eq_sample :
    let t (i j k : Nat) := Term.node i (.node j (.symbol .list)
      [.node k (.symbol sample) [.int (-1)], .text (.ofUnits [0x22, 0x41, 0xD800])]) [null]
    (t 1 2 3).toText = "\x7bf(-1), \"\\\"A\\x\x7bd800\x7d\"\x7d(Null)" ∧
      (t 1 2 3 == t 0 0 0) = true :=
  ⟨by rfl, beq_of_toText_eq legible_sample (by simp [Every, AllEvery, Readable, null])
    (by simp [Every, AllEvery, Readable, null]) rfl⟩

end Term

end Termwise
