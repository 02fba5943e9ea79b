import Mathlib.Data.List.Forall2
import Mathlib.Order.CompleteBooleanAlgebra
import Mathlib.Order.CompletePartialOrder
import Termwise.Proofs.Pattern.FirstSolution
import Termwise.Proofs.Pattern.Renaming

/-!
# Termwise.Proofs.Pattern.Likeness

Terms of two runs that correspond.  Which ones do may become clear only while the runs go
on, as more nodes are named, so a `Likeness` is a relation for each stage of the two runs
that holds on at all later stages.  Terms that correspond are structurally equal, part by
part; what a search builds from corresponding terms corresponds, and patterns that are
read off them (`Likeness.Patterns`) ask for the same numbers of arguments.
-/

namespace Termwise

/-- A relation between terms of two runs, at each stage of the runs. -/
structure Likeness (W : Type) [Preorder W] where
  /-- Two terms correspond. -/
  Like : W → Term → Term → Prop
  later : ∀ {w w' : W} {t t' : Term}, w ≤ w' → Like w t t' → Like w' t t'
  strip_eq : ∀ {w : W} {t t' : Term}, Like w t t' → t.strip = t'.strip
  head : ∀ {w : W} {i j : Nat} {f g : Term} {xs ys : List Term},
    Like w (.node i f xs) (.node j g ys) → Like w f g
  args : ∀ {w : W} {i j : Nat} {f g : Term} {xs ys : List Term},
    Like w (.node i f xs) (.node j g ys) → List.Forall₂ (Like w) xs ys
  call : ∀ {w : W} {f g : Term} {xs ys : List Term}, Like w f g → List.Forall₂ (Like w) xs ys →
    Like w (.call f xs) (.call g ys)
  symbol : ∀ (w : W) (s : Symbol), Like w (.symbol s) (.symbol s)
  int : ∀ (w : W) (n : Int64), Like w (.int n) (.int n)
  magic : ∀ (w : W) (m : Magic), Like w (.magic m) (.magic m)

/-- Terms are the same once they are stripped of identities; nothing else counts. -/
def Likeness.bare : Likeness Unit where
  Like _ t t' := t.strip = t'.strip
  later _ h := h
  strip_eq h := h
  head h := by
    rw [Term.strip, Term.strip, Term.node.injEq] at h
    exact h.2.1
  args h := by
    rw [Term.strip, Term.strip, Term.node.injEq, Term.stripAll_eq_map, Term.stripAll_eq_map,
      ← List.forall₂_eq_eq_eq, List.forall₂_map_left_iff, List.forall₂_map_right_iff] at h
    exact h.2.2
  call hf hxs := by
    rw [← List.forall₂_map_right_iff, ← List.forall₂_map_left_iff, List.forall₂_eq_eq_eq] at hxs
    rw [Term.strip_call, Term.strip_call, hf, hxs]
  symbol _ _ := rfl
  int _ _ := rfl
  magic _ _ := rfl

namespace Likeness

variable {W : Type} [Preorder W] {L : Likeness W} {w w' : W}

/-! ## terms -/

/-- Lists of terms correspond item by item. -/
abbrev All (L : Likeness W) (w : W) : List Term → List Term → Prop := List.Forall₂ (L.Like w)

/-- Optional terms correspond if both are absent or both are there and correspond. -/
abbrev Maybe (L : Likeness W) (w : W) : Option Term → Option Term → Prop := Option.Rel (L.Like w)

variable {t t' f g : Term} {xs ys : List Term} {o o' : Option Term}

theorem All.later (h : L.All w xs ys) (hw : w ≤ w') : L.All w' xs ys :=
  h.imp fun _ _ => L.later hw

theorem Maybe.later (h : L.Maybe w o o') (hw : w ≤ w') : L.Maybe w' o o' := by
  cases h with
  | some h => exact .some (L.later hw h)
  | none => exact .none

theorem Maybe.map_strip (h : L.Maybe w o o') : o.map Term.strip = o'.map Term.strip := by
  cases h with
  | some h => exact congrArg some (L.strip_eq h)
  | none => rfl

theorem All.append {xs' ys' : List Term} (h : L.All w xs ys) (h' : L.All w xs' ys') :
    L.All w (xs ++ xs') (ys ++ ys') := List.rel_append h h'

theorem All.take (h : L.All w xs ys) (n : Nat) : L.All w (xs.take n) (ys.take n) :=
  List.forall₂_take n h

theorem All.drop (h : L.All w xs ys) (n : Nat) : L.All w (xs.drop n) (ys.drop n) :=
  List.forall₂_drop n h

/-- What corresponds to a call is a call. -/
theorem exists_node {i : Nat} (h : L.Like w (.node i f xs) t') : ∃ j g ys, t' = .node j g ys ∧
    L.Like w f g ∧ L.All w xs ys := by
  have hstrip := L.strip_eq h
  cases t' with
  | node j g ys => exact ⟨j, g, ys, rfl, L.head h, L.args h⟩
  | _ => simp [Term.strip] at hstrip

/-- What corresponds to a symbol is that symbol. -/
theorem eq_symbol {s : Symbol} (h : L.Like w (.symbol s) t') : t' = .symbol s := by
  have hstrip := L.strip_eq h
  cases t' with
  | symbol s' => exact hstrip.symm
  | _ => simp [Term.strip] at hstrip

/-- A question about structure has one answer for both. -/
theorem congr_strip {α : Type} {q : Term → α} (hq : ∀ t : Term, q t.strip = q t)
    (h : L.Like w t t') : q t = q t' := by
  rw [← hq t, L.strip_eq h, hq]

theorem beq_congr {u u' : Term} (h : L.Like w t t') (hu : L.Like w u u') :
    (t == u) = (t' == u') := Term.beq_congr (L.strip_eq h) (L.strip_eq hu)

theorem isSymbol_eq (h : L.Like w t t') (s : Symbol) : t.isSymbol s = t'.isSymbol s :=
  congr_strip (q := fun t => t.isSymbol s) (fun t => Term.isSymbol_strip t s) h

theorem isMarker_eq (h : L.Like w t t') : t.isMarker = t'.isMarker :=
  congr_strip Term.isMarker_strip h

theorem app (s : Symbol) (h : L.All w xs ys) : L.Like w (.app s xs) (.app s ys) :=
  L.call (L.symbol w s) h

theorem marker (h : L.All w xs ys) : L.Like w (.marker xs) (.marker ys) :=
  L.call (L.magic w .sequence) h

theorem all_args (h : L.Like w t t') : L.All w t.args t'.args := by
  cases t with
  | node i f xs =>
      obtain ⟨j, g, ys, rfl, -, hargs⟩ := exists_node h
      exact hargs
  | _ =>
      have hstrip := L.strip_eq h
      cases t' with
      | node => simp [Term.strip] at hstrip
      | _ => exact .nil

theorem like_key (h : L.Like w t t') : L.Like w t.key t'.key := by
  cases t with
  | node i f xs =>
      obtain ⟨j, g, ys, rfl, hhead, -⟩ := exists_node h
      exact hhead
  | _ =>
      have hstrip := L.strip_eq h
      cases t' with
      | node => simp [Term.strip] at hstrip
      | _ => exact h

theorem all_run (h : L.Like w t t') : L.All w t.run t'.run := by
  rw [Term.run, Term.run, isMarker_eq h]
  split
  · exact all_args h
  · exact .cons h .nil

theorem maybe_single? (h : L.Like w t t') : L.Maybe w t.single? t'.single? := by
  rw [Term.single?, Term.single?, isMarker_eq h]
  split
  · generalize t.args = xs, t'.args = ys, all_args h = hargs
    cases hargs with
    | nil => exact .none
    | cons hx hrest =>
        cases hrest with
        | nil => exact .some hx
        | cons => exact .none
  · exact .some h

theorem topmost?_eq : ∀ {t t' : Term}, L.Like w t t' → t.topmost? = t'.topmost?
  | .symbol s, t', h => by rw [eq_symbol h]
  | .node i f xs, t', h => by
      obtain ⟨j, g, ys, rfl, hhead, -⟩ := exists_node h
      have htopmost := topmost?_eq hhead
      exact htopmost
  | .magic _, t', h | .int _, t', h | .float _, t', h | .text _, t', h | .host _, t', h => by
      have hstrip := L.strip_eq h
      cases t' with
      | symbol => simp [Term.strip] at hstrip
      | node => simp [Term.strip] at hstrip
      | _ => rfl

theorem like_value {flat flat' : Option Term} (s : Size) (hflat : L.Maybe w flat flat')
    (h : L.All w xs ys) : L.Like w (s.value flat xs) (s.value flat' ys) := by
  cases h with
  | nil => exact marker .nil
  | cons hx hrest =>
      cases hrest with
      | nil =>
          simp only [Size.value]
          split
          · exact hx
          · exact marker (.cons hx .nil)
      | cons hy hrest =>
          have hall := List.Forall₂.cons hx (.cons hy hrest)
          cases hflat with
          | none => exact marker hall
          | some hf =>
              simp only [Size.value]
              split
              · exact L.call hf hall
              · exact marker hall

/-! ## bindings -/

/-- The same names are bound to terms that correspond. -/
def Bound (L : Likeness W) (w : W) (b b' : Bindings) : Prop :=
  List.Forall₂ (fun e e' => e.1 = e'.1 ∧ L.Like w e.2 e'.2) b.entries b'.entries

variable {b b' : Bindings}

theorem Bound.get? (h : L.Bound w b b') (name : Symbol) :
    L.Maybe w (b.get? name) (b'.get? name) := by
  obtain ⟨entries⟩ := b
  obtain ⟨entries'⟩ := b'
  change List.Forall₂ _ entries entries' at h
  unfold Bindings.get?
  induction h with
  | nil => exact .none
  | cons he _ ih =>
      rw [List.find?_cons, List.find?_cons, he.1]
      split
      · exact .some he.2
      · exact ih

mutual

theorem maybe_substitute? (hb : L.Bound w b b') : ∀ {t t' : Term}, L.Like w t t' →
    L.Maybe w (t.substitute? b) (t'.substitute? b')
  | .symbol s, t', h => by
      rw [eq_symbol h]
      exact hb.get? s
  | .node i f xs, t', h => by
      obtain ⟨j, g, ys, rfl, hhead, hargs⟩ := exists_node h
      have hnew := maybe_substitute? hb hhead
      simp only [Term.substitute?]
      generalize f.substitute? b = o, g.substitute? b' = o' at hnew
      cases hnew with
      | some hnew => exact .some (L.call hnew (all_spliceArgs hb hargs))
      | none =>
          have hnews := rel_substituteArgs? hb hargs
          dsimp only
          generalize Term.substituteArgs? b xs = o, Term.substituteArgs? b' ys = o' at hnews
          cases hnews with
          | some hnews => exact .some (L.call hhead hnews)
          | none => exact .none
  | .magic _, t', h | .int _, t', h | .float _, t', h | .text _, t', h | .host _, t', h => by
      have hstrip := L.strip_eq h
      cases t' with
      | symbol => simp [Term.strip] at hstrip
      | node => simp [Term.strip] at hstrip
      | _ => exact .none

theorem rel_substituteArgs? (hb : L.Bound w b b') : ∀ {xs ys : List Term}, L.All w xs ys →
    Option.Rel (L.All w) (Term.substituteArgs? b xs) (Term.substituteArgs? b' ys)
  | [], _, h => by
      cases h
      exact .none
  | t :: ts, _, h => by
      cases h with
      | @cons _ t' _ ts' ht hts =>
          have hnew := maybe_substitute? hb ht
          simp only [Term.substituteArgs?]
          generalize t.substitute? b = o, t'.substitute? b' = o' at hnew
          cases hnew with
          | some hnew => exact .some ((all_run hnew).append (all_spliceArgs hb hts))
          | none =>
              have hnews := rel_substituteArgs? hb hts
              dsimp only
              generalize Term.substituteArgs? b ts = o, Term.substituteArgs? b' ts' = o' at hnews
              cases hnews with
              | some hnews => exact .some (.cons ht hnews)
              | none => exact .none

theorem all_spliceArgs (hb : L.Bound w b b') : ∀ {xs ys : List Term}, L.All w xs ys →
    L.All w (Term.spliceArgs b xs) (Term.spliceArgs b' ys)
  | [], _, h => by
      cases h
      exact .nil
  | t :: ts, _, h => by
      cases h with
      | @cons _ t' _ ts' ht hts =>
          have hnew := maybe_substitute? hb ht
          simp only [Term.spliceArgs]
          generalize t.substitute? b = o, t'.substitute? b' = o' at hnew
          cases hnew with
          | some hnew => exact (all_run hnew).append (all_spliceArgs hb hts)
          | none => exact (all_run ht).append (all_spliceArgs hb hts)

end

theorem like_substitute (hb : L.Bound w b b') (h : L.Like w t t') :
    L.Like w (t.substitute b) (t'.substitute b') := by
  have hnew := maybe_substitute? hb h
  unfold Term.substitute
  generalize t.substitute? b = o, t'.substitute? b' = o' at hnew
  cases hnew with
  | some hnew => exact hnew
  | none => exact h

/-! ## patterns -/

mutual

/-- Patterns of one form whose terms correspond. -/
inductive Patterns (L : Likeness W) (w : W) : Pattern → Pattern → Prop
  | blank {type type' : Option Term} : L.Maybe w type type' →
      Patterns L w (.blank type) (.blank type')
  | blankSequence {type type' : Option Term} : L.Maybe w type type' →
      Patterns L w (.blankSequence type) (.blankSequence type')
  | blankNullSequence {type type' : Option Term} : L.Maybe w type type' →
      Patterns L w (.blankNullSequence type) (.blankNullSequence type')
  | named {p p' : Pattern} (name : Symbol) : Patterns L w p p' →
      Patterns L w (.named name p) (.named name p')
  | condition {p p' : Pattern} {test test' : Term} : Patterns L w p p' → L.Like w test test' →
      Patterns L w (.condition p test) (.condition p' test')
  | tested {p p' : Pattern} {f f' : Term} : Patterns L w p p' → L.Like w f f' →
      Patterns L w (.tested p f) (.tested p' f')
  | alternatives {ps ps' : List Pattern} : AllPatterns L w ps ps' →
      Patterns L w (.alternatives ps) (.alternatives ps')
  | repeated {p p' : Pattern} (bounds bounds' : Option Term) (least most : Nat) :
      Patterns L w p p' →
      Patterns L w (.repeated p bounds least most) (.repeated p' bounds' least most)
  | optional {p p' : Pattern} {d d' : Option Term} : Patterns L w p p' → L.Maybe w d d' →
      Patterns L w (.optional p d) (.optional p' d')
  | hold {p p' : Pattern} : Patterns L w p p' → Patterns L w (.hold p) (.hold p')
  | longest {p p' : Pattern} : Patterns L w p p' → Patterns L w (.longest p) (.longest p')
  | shortest {p p' : Pattern} : Patterns L w p p' → Patterns L w (.shortest p) (.shortest p')
  | literal {t t' : Term} : L.Like w t t' → Patterns L w (.literal t) (.literal t')
  | sequence {ps ps' : List Pattern} : AllPatterns L w ps ps' →
      Patterns L w (.sequence ps) (.sequence ps')
  | except {p p' : Pattern} : Patterns L w p p' → Patterns L w (.except p) (.except p')
  | exceptThen {p p' q q' : Pattern} : Patterns L w p p' → Patterns L w q q' →
      Patterns L w (.exceptThen p q) (.exceptThen p' q')
  | call {whole whole' : Term} {p p' : Pattern} {ps ps' : List Pattern} : L.Like w whole whole' →
      Patterns L w p p' → AllPatterns L w ps ps' →
      Patterns L w (.call whole p ps) (.call whole' p' ps')
  | atom {t t' : Term} : L.Like w t t' → Patterns L w (.atom t) (.atom t')

/-- Patterns that correspond one by one. -/
inductive AllPatterns (L : Likeness W) (w : W) : List Pattern → List Pattern → Prop
  | nil : AllPatterns L w [] []
  | cons {p p' : Pattern} {ps ps' : List Pattern} : Patterns L w p p' → AllPatterns L w ps ps' →
      AllPatterns L w (p :: ps) (p' :: ps')

end

/-! ## reading patterns -/

theorem bound?_eq (h : L.Like w t t') : Pattern.bound? t = Pattern.bound? t' := by
  have hstrip := L.strip_eq h
  cases t <;> cases t' <;> simp only [Term.strip, reduceCtorEq] at hstrip
  case int.int => rw [Term.int.inj hstrip]
  case symbol.symbol => rw [Term.symbol.inj hstrip]
  all_goals rfl

theorem range?_eq (h : L.Like w t t') : Pattern.range? t = Pattern.range? t' := by
  cases t with
  | node i f xs =>
      obtain ⟨j, g, ys, rfl, hhead, hargs⟩ := exists_node h
      have hstrip := L.strip_eq hhead
      cases f <;> cases g <;> simp only [Term.strip, reduceCtorEq] at hstrip
      case symbol.symbol =>
          rw [Term.symbol.inj hstrip]
          rcases hargs with _ | ⟨hx, _ | ⟨hy, _ | ⟨hz, hrest⟩⟩⟩
          · rfl
          · simp only [Pattern.range?, bound?_eq hx]
          · simp only [Pattern.range?, bound?_eq hx, bound?_eq hy]
          · rfl
      all_goals rfl
  | _ =>
      have hstrip := L.strip_eq h
      cases t' <;> simp only [Term.strip, reduceCtorEq] at hstrip
      first | rfl | rw [Term.int.inj hstrip]

/-- A term that corresponds to a symbol is that symbol, and one that does not is none. -/
theorem symbol_or (h : L.Like w t t') :
    (∃ s, t = .symbol s ∧ t' = .symbol s) ∨ ((∀ s, t ≠ .symbol s) ∧ ∀ s, t' ≠ .symbol s) := by
  have hstrip := L.strip_eq h
  cases t <;> cases t' <;> simp only [Term.strip, reduceCtorEq] at hstrip
  case symbol.symbol => exact .inl ⟨_, rfl, congrArg Term.symbol (Term.symbol.inj hstrip).symm⟩
  all_goals exact .inr ⟨nofun, nofun⟩

theorem rel_ite_of {α : Type} {R : α → α → Prop} {c : Prop} [Decidable c] {a a' b b' : α}
    (ha : c → R a a') (hb : R b b') : R (if c then a else b) (if c then a' else b') := by
  split
  · exact ha ‹_›
  · exact hb

theorem rel_ite {α : Type} {R : α → α → Prop} {c : Prop} [Decidable c] {a a' b b' : α}
    (ha : R a a') (hb : R b b') : R (if c then a else b) (if c then a' else b') :=
  rel_ite_of (fun _ => ha) hb

theorem rel_form? (s : Symbol) {read read' : List Pattern} (h : L.All w xs ys)
    (hread : L.AllPatterns w read read') :
    Option.Rel (L.Patterns w) (Pattern.form? s xs read) (Pattern.form? s ys read') := by
  unfold Pattern.form?
  refine rel_ite ?blank (rel_ite ?blankSequence (rel_ite ?blankNullSequence (rel_ite ?pattern
    (rel_ite ?condition (rel_ite ?patternTest (rel_ite (.some (.alternatives hread))
    (rel_ite ?repeated (rel_ite ?optional (rel_ite ?hold (rel_ite ?longest (rel_ite ?shortest
    (rel_ite ?literal (rel_ite (.some (.sequence hread)) (rel_ite ?except .none))))))))))))))
  case blank | blankSequence | blankNullSequence =>
    rcases h with _ | ⟨hx, _ | ⟨hy, hrest⟩⟩
    · exact .some (by constructor; exact .none)
    · exact .some (by constructor; exact .some hx)
    · exact .none
  case pattern =>
    rcases h with _ | @⟨x, x', _, _, hx, hrest⟩
    · exact .none
    rcases symbol_or hx with ⟨name, rfl, rfl⟩ | ⟨hne, hne'⟩
    · rcases hrest with _ | ⟨hy, _ | ⟨hz, hrest⟩⟩ <;>
        rcases hread with _ | ⟨hp, _ | ⟨hq, _ | ⟨hr, hmore⟩⟩⟩ <;>
        first | exact .none | exact .some (.named name hq)
    · cases x <;> cases x' <;>
        first | exact .none | exact absurd rfl (hne _) | exact absurd rfl (hne' _)
  case condition =>
    rcases h with _ | ⟨hx, _ | ⟨hy, _ | ⟨hz, hrest⟩⟩⟩ <;>
      rcases hread with _ | ⟨hp, _ | ⟨hq, _ | ⟨hr, hmore⟩⟩⟩ <;>
      first | exact .none | exact .some (.condition hp hy)
  case patternTest =>
    rcases h with _ | ⟨hx, _ | ⟨hy, _ | ⟨hz, hrest⟩⟩⟩ <;>
      rcases hread with _ | ⟨hp, _ | ⟨hq, _ | ⟨hr, hmore⟩⟩⟩ <;>
      first | exact .none | exact .some (.tested hp hy)
  case repeated =>
    rcases h with _ | ⟨hx, _ | ⟨hy, _ | ⟨hz, hrest⟩⟩⟩ <;>
      rcases hread with _ | ⟨hp, _ | ⟨hq, _ | ⟨hr, hmore⟩⟩⟩ <;>
      first | exact .none | exact .some (.repeated none none 1 _ hp) | skip
    dsimp only
    rw [range?_eq hy]
    cases Pattern.range? _ with
    | none => exact .none
    | some range => exact .some (.repeated _ _ _ _ hp)
  case optional =>
    rcases h with _ | ⟨hx, _ | ⟨hy, _ | ⟨hz, hrest⟩⟩⟩ <;>
      rcases hread with _ | ⟨hp, _ | ⟨hq, _ | ⟨hr, hmore⟩⟩⟩ <;>
      first
      | exact .none
      | exact .some (.optional hp .none)
      | exact .some (.optional hp (.some hy))
  case hold | longest | shortest =>
    rcases hread with _ | ⟨hp, _ | ⟨hq, hmore⟩⟩
    · exact .none
    · exact .some (by constructor; exact hp)
    · exact .none
  case except =>
    rcases hread with _ | ⟨hp, _ | ⟨hq, _ | ⟨hr, hmore⟩⟩⟩
    · exact .none
    · exact .some (.except hp)
    · exact .some (.exceptThen hp hq)
    · exact .none
  case literal =>
    rcases h with _ | ⟨hx, _ | ⟨hy, hrest⟩⟩
    · exact .none
    · exact .some (.literal hx)
    · exact .none

mutual

/-- Terms that correspond read as patterns that correspond. -/
theorem patterns_ofTerm : ∀ {t t' : Term}, L.Like w t t' →
    L.Patterns w (.ofTerm t) (.ofTerm t')
  | .node i f xs, t', h => by
      obtain ⟨j, g, ys, rfl, hhead, hargs⟩ := exists_node h
      have hread := allPatterns_ofTerms hargs
      have hwhole := Patterns.call h (patterns_ofTerm hhead) hread
      rcases symbol_or hhead with ⟨s, rfl, rfl⟩ | ⟨hne, hne'⟩
      · have hform := rel_form? s hargs hread
        change L.Patterns w ((Pattern.form? s xs (Pattern.ofTerms xs)).getD _)
          ((Pattern.form? s ys (Pattern.ofTerms ys)).getD _)
        generalize Pattern.form? s xs _ = o, Pattern.form? s ys _ = o' at hform
        cases hform with
        | some hp => exact hp
        | none => exact hwhole
      · rwa [Pattern.ofTerm, Pattern.ofTerm]
        · exact hne'
        · exact hne
  | .symbol s, t', h => by
      rw [eq_symbol h]
      exact .atom (L.symbol w s)
  | .magic _, t', h | .int _, t', h | .float _, t', h | .text _, t', h | .host _, t', h => by
      have hstrip := L.strip_eq h
      cases t' with
      | node => simp [Term.strip] at hstrip
      | _ => exact .atom h

theorem allPatterns_ofTerms : ∀ {xs ys : List Term}, L.All w xs ys →
    L.AllPatterns w (Pattern.ofTerms xs) (Pattern.ofTerms ys)
  | [], _, h => by
      cases h
      exact .nil
  | t :: ts, _, h => by
      cases h with
      | cons ht hts => exact .cons (patterns_ofTerm ht) (allPatterns_ofTerms hts)

end

end Likeness

end Termwise
