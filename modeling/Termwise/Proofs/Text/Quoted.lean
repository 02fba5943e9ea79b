import Mathlib
import Termwise.Text.Quoted

/-!
# Termwise.Proofs.Text.Quoted

A quoted text says which units it stands for, and where it ends:

* `flatMap_units_decode` — decoding loses nothing: written back, the pieces are the units;
* `Written.cancel` — no piece is the start of another one;
* `quoted_cancel` — of two quoted texts that read alike with anything behind them, the
  units agree and so does what stands behind.
-/

namespace Termwise.Text

/-! ## texts behind one another -/

/-- A run of characters is told by where it stops, if all of it passes a test that what stands
behind fails. -/
theorem run_cancel {p : Char → Bool} {v w r s : List Char} (hv : ∀ c ∈ v, p c = true)
    (hw : ∀ c ∈ w, p c = true) (hr : ∀ c ∈ r.head?, p c = false) (hs : ∀ c ∈ s.head?, p c = false)
    (h : v ++ r = w ++ s) : v = w ∧ r = s := by
  have none_of_stop : ∀ t : List Char, (∀ c ∈ t.head?, p c = false) → t.takeWhile p = [] := by
    intro t ht
    cases t with
    | nil => rfl
    | cons c t => simp [ht c rfl]
  have hvw : v = w := by
    have := congrArg (List.takeWhile p) h
    rwa [List.takeWhile_append_of_pos hv, List.takeWhile_append_of_pos hw, none_of_stop r hr,
      none_of_stop s hs, List.append_nil, List.append_nil] at this
  subst hvw
  exact ⟨rfl, List.append_cancel_left h⟩

/-- Texts that tell where they end, one behind the other up to something that none of them starts
with, are told apart one by one. -/
theorem flatMap_cancel {α : Type} {f : α → List Char} {R : α → α → Prop}
    (Ends Follows : List Char → Prop) (start : ∀ x r, ¬ Ends (f x ++ r))
    (last : ∀ r, Ends r → Follows r) (next : ∀ x r, Follows (f x ++ r)) :
    ∀ {xs ys : List α} {r s : List Char},
      (∀ x ∈ xs, ∀ y ∈ ys, ∀ r s, Follows r → Follows s → f x ++ r = f y ++ s → R x y ∧ r = s) →
      Ends r → Ends s → xs.flatMap f ++ r = ys.flatMap f ++ s → List.Forall₂ R xs ys ∧ r = s
  | [], [], _, _, _, _, _, h => ⟨.nil, by simpa using h⟩
  | [], y :: ys, r, s, _, hr, _, h => by
      have hy : r = f y ++ (ys.flatMap f ++ s) := by simpa using h
      exact absurd (hy ▸ hr) (start _ _)
  | x :: xs, [], r, s, _, _, hs, h => by
      have hx : f x ++ (xs.flatMap f ++ r) = s := by simpa using h
      exact absurd (hx.symm ▸ hs) (start _ _)
  | x :: xs, y :: ys, r, s, told, hr, hs, h => by
      have follows : ∀ (zs : List α) (t : List Char), Ends t → Follows (zs.flatMap f ++ t) := by
        intro zs t ht
        cases zs with
        | nil => exact last t ht
        | cons z zs =>
            rw [List.flatMap_cons, List.append_assoc]
            exact next _ _
      have hxy : f x ++ (xs.flatMap f ++ r) = f y ++ (ys.flatMap f ++ s) := by simpa using h
      obtain ⟨hR, hrest⟩ := told x (by simp) y (by simp) _ _ (follows xs r hr) (follows ys s hs) hxy
      obtain ⟨hRs, hrs⟩ := flatMap_cancel Ends Follows start last next
        (fun x hx y hy => told x (List.mem_cons_of_mem _ hx) y (List.mem_cons_of_mem _ hy))
        hr hs hrest
      exact ⟨.cons hR hRs, hrs⟩

/-! ## units and pieces -/

namespace Units

/-- The units that a piece stands for. -/
def Piece.units : Piece → List UInt16
  | .char c => ofChar c
  | .lone u => [u]

/-- A unit outside of the surrogates is the one unit of its character. -/
theorem ofChar_ofNat {u : UInt16} (hh : isHigh u = false) (hl : isLow u = false) :
    ofChar (Char.ofNat u.toNat) = [u] := by
  have hv : u.toNat.isValidChar := by
    simp only [isHigh, isLow, Bool.and_eq_false_iff, decide_eq_false_iff_not,
      UInt16.le_iff_toNat_le, UInt16.reduceToNat] at hh hl
    have := u.toNat_lt
    rw [Nat.isValidChar]
    omega
  have hlt : u.toNat < 0x10000 := u.toNat_lt
  rw [ofChar, Char.toNat_ofNat, if_pos hv, if_pos hlt]
  simp

/-- A surrogate pair is the two units of its character. -/
theorem ofChar_pair {u v : UInt16} (hu : isHigh u = true) (hv : isLow v = true) :
    ofChar (pair u v) = [u, v] := by
  simp only [isHigh, isLow, Bool.and_eq_true, decide_eq_true_eq, UInt16.le_iff_toNat_le,
    UInt16.reduceToNat] at hu hv
  obtain ⟨n, hn⟩ : ∃ n, n = 0x10000 + (u.toNat - 0xD800) * 0x400 + (v.toNat - 0xDC00) := ⟨_, rfl⟩
  have hvalid : n.isValidChar := by right; omega
  have hbig : ¬ n < 0x10000 := by omega
  have hhigh : 0xD800 + (n - 0x10000) / 0x400 = u.toNat := by omega
  have hlow : 0xDC00 + (n - 0x10000) % 0x400 = v.toNat := by omega
  rw [pair, ← hn, ofChar, Char.toNat_ofNat, if_pos hvalid, if_neg hbig]
  simp only [hhigh, hlow]
  simp

/-- Written back, the pieces of a unit sequence are the sequence. -/
theorem flatMap_units_decode (us : List UInt16) : (decode us).flatMap Piece.units = us := by
  fun_induction decode us with
  | case1 => rfl
  | case2 u =>
      by_cases h : isHigh u || isLow u
      · simp [h, Piece.units]
      · simp only [Bool.not_eq_true, Bool.or_eq_false_iff] at h
        simp [h.1, h.2, Piece.units, ofChar_ofNat h.1 h.2]
  | case3 u v rest hu hv ih => simp [Piece.units, ofChar_pair hu hv, ih]
  | case4 u v rest hu hv ih => simp [Piece.units, ih]
  | case5 u v rest hu hl ih => simp [Piece.units, ih]
  | case6 u v rest hu hl ih =>
      simp [Piece.units, ofChar_ofNat (by simpa using hu) (by simpa using hl), ih]

theorem decode_injective {us vs : List UInt16} (h : decode us = decode vs) : us = vs := by
  rw [← flatMap_units_decode us, h, flatMap_units_decode]

end Units

/-! ## hexadecimal numbers -/

namespace Quoted

open Termwise.Text.Units

/-- The value of a hexadecimal digit. -/
def digit (c : Char) : Nat := if c.isDigit then c.toNat - 48 else c.toNat - 87

/-- The value of hexadecimal digits. -/
def hexValue (cs : List Char) : Nat := cs.foldl (fun v c => 16 * v + digit c) 0

theorem digit_digitChar {d : Nat} (h : d < 16) : digit d.digitChar = d := by
  interval_cases d <;> rfl

theorem hexValue_concat (cs : List Char) (c : Char) :
    hexValue (cs ++ [c]) = 16 * hexValue cs + digit c := by
  simp [hexValue]

theorem hexValue_toDigits (n : Nat) : hexValue (Nat.toDigits 16 n) = n := by
  induction n using Nat.strong_induction_on with
  | _ n ih =>
    rw [Nat.toDigits_eq_if (by decide)]
    split
    · next h => simp [hexValue, digit_digitChar h]
    · next h =>
        rw [hexValue_concat, ih (n / 16) (by omega), digit_digitChar (by omega)]
        omega

theorem hexValue_hex (width n : Nat) : hexValue (hex width n) = n := by
  have zeros : ∀ k : Nat, (List.replicate k '0').foldl (fun v c => 16 * v + digit c) 0 = 0 := by
    intro k
    induction k with
    | zero => rfl
    | succ k ih => rwa [List.replicate_succ]
  rw [hex, hexValue, List.foldl_append, zeros]
  exact hexValue_toDigits n

theorem length_hex {width n : Nat} (h : (Nat.toDigits 16 n).length ≤ width) :
    (hex width n).length = width := by
  simp only [hex, List.length_append, List.length_replicate]
  omega

theorem exists_digitChar_of_mem_toDigits {n : Nat} {c : Char} (h : c ∈ Nat.toDigits 16 n) :
    ∃ d < 16, c = d.digitChar := by
  induction n using Nat.strong_induction_on with
  | _ n ih =>
    rw [Nat.toDigits_eq_if (by decide)] at h
    split at h
    · next hn => exact ⟨n, hn, by simpa using h⟩
    · next hn =>
        rcases List.mem_append.1 h with h | h
        · exact ih (n / 16) (by omega) h
        · exact ⟨n % 16, by omega, by simpa using h⟩

/-- No digit closes a brace. -/
theorem bne_brace_of_mem_hex {width n : Nat} {c : Char} (h : c ∈ hex width n) :
    (c != '\x7d') = true := by
  rcases List.mem_append.1 h with h | h
  · rw [List.eq_of_mem_replicate h]
    rfl
  · obtain ⟨d, hd, rfl⟩ := exists_digitChar_of_mem_toDigits h
    interval_cases d <;> rfl

/-- An escape in braces tells its number, and the number of its digits. -/
theorem escaped_cancel {v w m n : Nat} {r s : List Char} (h : escaped v m ++ r = escaped w n ++ s) :
    (hex v m).length = (hex w n).length ∧ m = n ∧ r = s := by
  have hh : hex v m ++ '\x7d' :: r = hex w n ++ '\x7d' :: s := by simpa [escaped] using h
  obtain ⟨hd, hrest⟩ := run_cancel (p := (· != '\x7d')) (fun c hc => bne_brace_of_mem_hex hc)
    (fun c hc => bne_brace_of_mem_hex hc) (by simp) (by simp) hh
  refine ⟨by rw [hd], ?_, by simpa using hrest⟩
  rw [← hexValue_hex v m, hd, hexValue_hex]

/-! ## pieces between quotes -/

/-- The characters with an escape of one letter, with the letter. -/
def letters : List (Char × Char) :=
  [('"', '"'), ('\\', '\\'), ('\n', 'n'), ('\t', 't'), ('\r', 'r')]

/-- How a piece stands between the quotes: as itself, with the letter of an escape, or by its code
point, in two digits for a character and in four for a lone surrogate. -/
inductive Written : Piece → List Char → Prop
  | plain (c : Char) (hb : c ≠ '\\') (hq : c ≠ '"') : Written (.char c) [c]
  | letter (c d : Char) (h : (c, d) ∈ letters) : Written (.char c) ['\\', d]
  | control (c : Char) (h : (hex 2 c.toNat).length = 2) : Written (.char c) (escaped 2 c.toNat)
  | surrogate (u : UInt16) (h : (hex 4 u.toNat).length = 4) : Written (.lone u) (escaped 4 u.toNat)

theorem written_piece (p : Piece) : Written p (piece p) := by
  unfold piece
  split
  · next u =>
      exact .surrogate u
        (length_hex ((Nat.length_toDigits_le_iff (by decide) (by decide)).2 u.toNat_lt))
  · exact .letter _ _ (by decide)
  · exact .letter _ _ (by decide)
  · exact .letter _ _ (by decide)
  · exact .letter _ _ (by decide)
  · exact .letter _ _ (by decide)
  · next c hq hb _ _ _ =>
      split
      · next hc =>
          refine .control c (length_hex ((Nat.length_toDigits_le_iff (by decide) (by decide)).2 ?_))
          simp only [isControl, Bool.or_eq_true, Bool.and_eq_true, decide_eq_true_eq] at hc
          omega
      · exact .plain c hb hq

/-- No piece starts with the closing quote. -/
theorem Written.head?_ne_quote {p : Piece} {cs : List Char} (h : Written p cs) (r : List Char) :
    (cs ++ r).head? ≠ some '"' := by
  cases h with
  | plain c _ hq => simpa using hq
  | letter | control | surrogate => simp [escaped]

theorem ne_x_of_mem_letters {c d : Char} (h : (c, d) ∈ letters) : d ≠ 'x' := by
  have : ∀ e ∈ letters, e.2 ≠ 'x' := by decide
  exact this _ h

theorem eq_of_mem_letters {c c' d : Char} (h : (c, d) ∈ letters) (h' : (c', d) ∈ letters) :
    c = c' := by
  have : ∀ e ∈ letters, ∀ e' ∈ letters, e.2 = e'.2 → e.1 = e'.1 := by decide
  exact this _ h _ h' rfl

/-- No piece is the start of another one. -/
theorem Written.cancel {p q : Piece} {cs ds r s : List Char} (hp : Written p cs)
    (hq : Written q ds) (h : cs ++ r = ds ++ s) : p = q ∧ r = s := by
  cases hp with
  | plain c hb _ =>
      cases hq with
      | plain => simpa using h
      | letter | control | surrogate => exact absurd (List.cons.inj h).1 hb
  | letter c d hd =>
      cases hq with
      | plain _ hb _ => exact absurd (List.cons.inj h).1.symm hb
      | letter c' d' hd' =>
          obtain ⟨rfl, hrs⟩ : d = d' ∧ r = s := by simpa using h
          exact ⟨by rw [eq_of_mem_letters hd hd'], hrs⟩
      | control | surrogate =>
          exact absurd (List.cons.inj (List.cons.inj h).2).1 (ne_x_of_mem_letters hd)
  | control c hlen =>
      cases hq with
      | plain _ hb _ => exact absurd (List.cons.inj h).1.symm hb
      | letter _ _ hd =>
          exact absurd (List.cons.inj (List.cons.inj h).2).1.symm (ne_x_of_mem_letters hd)
      | control c' _ =>
          obtain ⟨-, hcode, hrs⟩ := escaped_cancel h
          exact ⟨by rw [Char.toNat_inj.1 hcode], hrs⟩
      | surrogate u hlen' =>
          have := (escaped_cancel h).1
          omega
  | surrogate u hlen =>
      cases hq with
      | plain _ hb _ => exact absurd (List.cons.inj h).1.symm hb
      | letter _ _ hd =>
          exact absurd (List.cons.inj (List.cons.inj h).2).1.symm (ne_x_of_mem_letters hd)
      | control c hlen' =>
          have := (escaped_cancel h).1
          omega
      | surrogate v _ =>
          obtain ⟨-, hcode, hrs⟩ := escaped_cancel h
          exact ⟨by rw [UInt16.toNat_inj.1 hcode], hrs⟩

/-! ## quoted texts -/

theorem toList_ofUnits (us : List UInt16) :
    (ofUnits us).toList = '"' :: ((decode us).flatMap piece ++ ['"']) := by
  simp [ofUnits]

/-- Two quoted texts that read alike, whatever stands behind them, are of the same units. -/
theorem quoted_cancel {us vs : List UInt16} {r s : List Char}
    (h : (ofUnits us).toList ++ r = (ofUnits vs).toList ++ s) : us = vs ∧ r = s := by
  have hp : (decode us).flatMap piece ++ '"' :: r = (decode vs).flatMap piece ++ '"' :: s := by
    simpa [toList_ofUnits] using h
  obtain ⟨hpieces, hrest⟩ := flatMap_cancel (R := Eq) (·.head? = some '"')
    (fun _ => True) (fun p r => (written_piece p).head?_ne_quote r) (fun _ _ => trivial)
    (fun _ _ => trivial) (fun p _ q _ _ _ _ _ => (written_piece p).cancel (written_piece q))
    rfl rfl hp
  exact ⟨decode_injective (List.forall₂_eq_eq_eq ▸ hpieces), by simpa using hrest⟩

end Quoted

end Termwise.Text
