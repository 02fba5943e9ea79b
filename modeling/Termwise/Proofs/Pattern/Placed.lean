import Termwise.Proofs.Pattern.Naming
import Termwise.Proofs.Pattern.RenamedKey
import Termwise.Proofs.Term.Ordinary

/-!
# Termwise.Proofs.Pattern.Placed

Left-hand sides whose names are in their places (`Pattern.Placed`): a name occurs only where it
names a part, and in tests that run when it is bound.  Another left-hand side that agrees with
such a one up to a renaming of names then reads as a pattern that corresponds to it up to
the names (`renames_ofTerm`).

Anywhere else a name is not one to the search: a symbol that stands for itself, as in
`f(x_, x)`, is matched as a constant, although a renaming goes through it as well.
-/

namespace Termwise

namespace NameCounts

variable {names names' : NameCounts}

/-- Names correspond that occur first in the same place; other symbols are no names and stay. -/
def naming (names names' : NameCounts) : Naming where
  Same x y := names.position? x = names'.position? y ∧ (names.position? x = none → x = y)
  unique := by
    rintro x x' y y' ⟨hx, hxx⟩ ⟨hy, hyy⟩
    constructor
    · rintro rfl
      cases hpos : names.position? x with
      | none => exact (hxx hpos).symm.trans (hyy hpos)
      | some i => exact position?_inj (hx.symm.trans hpos) (hy.symm.trans hpos)
    · rintro rfl
      cases hpos : names'.position? x' with
      | none => exact (hxx (hx.trans hpos)).trans (hyy (hy.trans hpos)).symm
      | some i => exact position?_inj (hx.trans hpos) (hy.trans hpos)
  Wanted x := names.position? x ≠ none

end NameCounts

/-! ## names in their places -/

namespace Pattern

mutual

/-- Whether names occur in a pattern only as the names of parts and in tests that run when they are
bound; some are known to be bound before. -/
def Placed (names : NameCounts) : Pattern → (Symbol → Prop) → Prop
  | blank type, _ => names.position? .blank = none ∧ ∀ h ∈ type, h.Nameless names
  | blankSequence type, _ => names.position? .blankSequence = none ∧ ∀ h ∈ type, h.Nameless names
  | blankNullSequence type, _ =>
    names.position? .blankNullSequence = none ∧ ∀ h ∈ type, h.Nameless names
  | named x p, known => names.position? .pattern = none ∧ p.Placed names fun y => y = x ∨ known y
  | condition p test, known =>
    names.position? .condition = none ∧ p.Placed names known ∧ test.NamesOnly names (p.After known)
  | tested p f, known =>
    names.position? .patternTest = none ∧ p.Placed names known ∧ f.Nameless names
  | alternatives ps, known => names.position? .alternatives = none ∧ EachPlaced names ps known
  | repeated p bounds _ _, known =>
    names.position? .repeated = none ∧ p.Placed names known ∧ ∀ t ∈ bounds, t.Nameless names
  | optional p d, known =>
    names.position? .optional = none ∧ p.Placed names known ∧ ∀ t ∈ d, t.Nameless names
  | hold p, known => names.position? .holdPattern = none ∧ p.Placed names known
  | longest p, known => names.position? .longest = none ∧ p.Placed names known
  | shortest p, known => names.position? .shortest = none ∧ p.Placed names known
  | literal t, _ => names.position? .literal = none ∧ t.Nameless names
  | sequence ps, known => names.position? .patternSequence = none ∧ SlotsPlaced names ps known
  | except no, known => names.position? .except = none ∧ no.Placed names known
  | exceptThen no p, known =>
    names.position? .except = none ∧ no.Placed names known ∧ p.Placed names known
  | call _ head args, known =>
    head.Placed names known ∧ SlotsPlaced names args (head.After known)
  | atom t, _ => t.Nameless names

/-- Names are in their places in each of several patterns. -/
def EachPlaced (names : NameCounts) : List Pattern → (Symbol → Prop) → Prop
  | [], _ => True
  | p :: ps, known => p.Placed names known ∧ EachPlaced names ps known

/-- Names are in their places in patterns that are matched one after the other. -/
def SlotsPlaced (names : NameCounts) : List Pattern → (Symbol → Prop) → Prop
  | [], _ => True
  | p :: ps, known => p.Placed names known ∧ SlotsPlaced names ps (p.After known)

end

/-- The head of a call that is pattern syntax is no name. -/
theorem Placed.position?_head {names : NameCounts} {known : Symbol → Prop} {s : Symbol}
    {xs : List Term} {read : List Pattern} {p : Pattern} (h : p.Placed names known)
    (hform : form? s xs read = some p) : names.position? s = none := by
  revert hform
  unfold form?
  repeat'
    refine iteInduction (motive := fun x => x = some p → names.position? s = none)
      (fun hs => ?_) fun _ => ?_
  all_goals
    try split
    all_goals
      intro hform
      first
      | cases hform
      | obtain ⟨_, -, rfl⟩ := Option.map_eq_some_iff.mp hform
  all_goals exact hs ▸ h.1

end Pattern

/-! ## agreeing terms -/

namespace Term

open Likeness NameCounts

variable {attrs : Symbol → Attributes} {names names' : NameCounts} {known : Symbol → Prop}
  {b b' : Bindings}

theorem forall₂_of_alphaEqualAll {xs ys : List Term}
    (h : alphaEqualAll names names' xs ys = true) :
    List.Forall₂ (fun x y => alphaEqual names names' x y = true) xs ys := by
  induction xs generalizing ys with
  | nil =>
      cases ys with
      | nil => exact .nil
      | cons y ys => cases h
  | cons x xs ih =>
      cases ys with
      | nil => cases h
      | cons y ys =>
          simp only [alphaEqualAll, Bool.and_eq_true] at h
          exact .cons h.1 (ih h.2)

/-! ### substitution -/

/-- What becomes of two parts of tests: they are replaced by parts that look the same, or stay, and
look the same themselves. -/
def SameFate (t t' : Term) (new new' : Option Term) : Prop :=
  Option.Rel (fun u u' : Term => u.strip = u'.strip) new new' ∧ (new = none → t.strip = t'.strip)

theorem SameFate.strip_eq {t t' : Term} {new new' : Option Term} (h : SameFate t t' new new') :
    (new.getD t).strip = (new'.getD t').strip := by
  obtain ⟨hnew, hold⟩ := h
  cases hnew with
  | some hnew => exact hnew
  | none => exact hold rfl

mutual

theorem sameFate_substitute? (hb : bare.Rebound (naming names names') () known b b') :
    ∀ {t t' : Term}, t.NamesOnly names known → alphaEqual names names' t t' = true →
      SameFate t t' (t.substitute? b) (t'.substitute? b')
  | .symbol x, .symbol y, ht, h => by
      rw [alphaEqual_symbol] at h
      refine ⟨hb.get? h, fun hnone => ?_⟩
      -- what stays is no name, for the names in tests are bound
      rw [substitute?] at hnone
      have hx : names.position? x = none := by
        refine ht.elim id fun hknown => by_contra fun hx => ?_
        have hbound := hb.bound x hx hknown
        rw [hnone] at hbound
        cases hbound
      rw [h.2 hx]
  | .node i f xs, .node j g ys, ht, h => by
      simp only [alphaEqual, Bool.and_eq_true] at h
      have hhead := sameFate_substitute? hb ht.2.1 h.1
      have hsplice := strip_spliceArgs hb ht.2.2 h.2
      have hargs := sameFate_substituteArgs? hb ht.2.2 h.2
      simp only [substitute?]
      obtain ⟨hnew, hold⟩ := hhead
      generalize f.substitute? b = o, g.substitute? b' = o' at hnew hold
      cases hnew with
      | some hnew =>
          refine ⟨.some ?_, fun hnone => nomatch hnone⟩
          rw [strip_call, strip_call, hnew, hsplice]
      | none =>
          obtain ⟨hnews, holds⟩ := hargs
          dsimp only
          generalize substituteArgs? b xs = o, substituteArgs? b' ys = o' at hnews holds
          cases hnews with
          | some hnews =>
              refine ⟨.some ?_, fun hnone => nomatch hnone⟩
              rw [strip_call, strip_call, hold rfl, hnews]
          | none =>
              refine ⟨.none, fun _ => ?_⟩
              rw [strip, strip, stripAll_eq_map, stripAll_eq_map, hold rfl, holds rfl]
  | .magic _, t', _, h | .int _, t', _, h | .float _, t', _, h | .text _, t', _, h
  | .host _, t', _, h => by
      cases t' with
      | symbol | node => cases h
      | _ => exact ⟨.none, fun _ => (beq_iff_strip _ _).mp h⟩

theorem sameFate_substituteArgs? (hb : bare.Rebound (naming names names') () known b b') :
    ∀ {xs ys : List Term}, AllEvery (AllowedName names known) xs →
      alphaEqualAll names names' xs ys = true →
      Option.Rel (fun us us' : List Term => us.map strip = us'.map strip) (substituteArgs? b xs)
        (substituteArgs? b' ys) ∧ (substituteArgs? b xs = none → xs.map strip = ys.map strip)
  | [], [], _, _ => ⟨.none, fun _ => rfl⟩
  | x :: xs, y :: ys, ht, h => by
      simp only [alphaEqualAll, Bool.and_eq_true] at h
      obtain ⟨hnew, hold⟩ := sameFate_substitute? hb ht.1 h.1
      obtain ⟨hnews, holds⟩ := sameFate_substituteArgs? hb ht.2 h.2
      have hsplice := strip_spliceArgs hb ht.2 h.2
      simp only [substituteArgs?]
      generalize x.substitute? b = o, y.substitute? b' = o' at hnew hold
      cases hnew with
      | some hnew =>
          refine ⟨.some ?_, fun hnone => nomatch hnone⟩
          rw [List.map_append, List.map_append, run_congr hnew, hsplice]
      | none =>
          dsimp only
          generalize substituteArgs? b xs = o, substituteArgs? b' ys = o' at hnews holds
          cases hnews with
          | some hnews =>
              refine ⟨.some ?_, fun hnone => nomatch hnone⟩
              rw [List.map_cons, List.map_cons, hold rfl, hnews]
          | none =>
              refine ⟨.none, fun _ => ?_⟩
              rw [List.map_cons, List.map_cons, hold rfl, holds rfl]

theorem strip_spliceArgs (hb : bare.Rebound (naming names names') () known b b') :
    ∀ {xs ys : List Term}, AllEvery (AllowedName names known) xs →
      alphaEqualAll names names' xs ys = true →
      (spliceArgs b xs).map strip = (spliceArgs b' ys).map strip
  | [], [], _, _ => rfl
  | x :: xs, y :: ys, ht, h => by
      simp only [alphaEqualAll, Bool.and_eq_true] at h
      rw [spliceArgs, spliceArgs, List.map_append, List.map_append,
        run_congr (sameFate_substitute? hb ht.1 h.1).strip_eq, strip_spliceArgs hb ht.2 h.2]

end

/-- Agreeing tests, all names of which are bound, become tests that look the same. -/
theorem strip_substitute_of_alphaEqual (hb : bare.Rebound (naming names names') () known b b')
    {t t' : Term} (ht : t.NamesOnly names known) (h : alphaEqual names names' t t' = true) :
    (t.substitute b).strip = (t'.substitute b').strip :=
  (sameFate_substitute? hb ht h).strip_eq

/-! ### constants -/

/-- The head of a call is no name when it is a symbol and the names in the call are placed. -/
theorem position?_head_of_placed {i : Nat} {s : Symbol} {xs : List Term}
    (h : (Pattern.ofTerm (.node i (.symbol s) xs)).Placed names known) :
    names.position? s = none := by
  obtain ⟨_, p, ⟨⟩, hform, hp⟩ | hcall := Pattern.ofTerm_node i (.symbol s) xs
  · rw [hp] at h
    exact h.position?_head hform
  · rw [hcall] at h
    exact h.1.resolve_right id

/-- Whether a head opens a match, as pattern syntax and flat calls do. -/
def OpensMatch (attrs : Symbol → Attributes) (f : Term) : Prop :=
  ∃ s, f = .symbol s ∧ s.opensMatch attrs = true

theorem isLiteral_node (i : Nat) {f : Term} (xs : List Term) (hf : ¬ f.OpensMatch attrs) :
    (node i f xs).isLiteral attrs = (f.isLiteral attrs && areLiteral attrs xs) := by
  cases f with
  | symbol s =>
      have hs : s.opensMatch attrs = false := Bool.eq_false_iff.mpr fun h => hf ⟨s, rfl, h⟩
      simp only [isLiteral, hs, Bool.not_false]
  | _ => rfl

theorem ofTerm_node_of_not_opensMatch (i : Nat) {f : Term} (xs : List Term)
    (hf : ¬ f.OpensMatch attrs) :
    Pattern.ofTerm (.node i f xs) =
      .call (.node i f xs) (Pattern.ofTerm f) (xs.map Pattern.ofTerm) := by
  obtain ⟨s, p, rfl, hform, -⟩ | hcall := Pattern.ofTerm_node i f xs
  · have hs : s.isPatternHead = false := Bool.eq_false_iff.mpr fun h =>
      hf ⟨s, rfl, by simp only [Symbol.opensMatch, h, Bool.true_or]⟩
    rw [Pattern.form?_eq_none hs] at hform
    cases hform
  · exact hcall

mutual

/-- Agreeing terms with their names in place are constants together. -/
theorem isLiteral_eq_of_placed {known : Symbol → Prop} : ∀ {a b : Term},
    (Pattern.ofTerm a).Placed names known → alphaEqual names names' a b = true →
      a.isLiteral attrs = b.isLiteral attrs
  | .node i f xs, .node j g ys, hp, h => by
      simp only [alphaEqual, Bool.and_eq_true] at h
      by_cases hf : f.OpensMatch attrs
      · obtain ⟨s, rfl, hs⟩ := hf
        obtain rfl := eq_of_alphaEqual_symbol (position?_head_of_placed hp) h.1
        simp only [isLiteral, hs, Bool.not_true, Bool.false_and]
      · have hg : ¬ g.OpensMatch attrs := by
          rintro ⟨s, rfl, hs⟩
          cases f with
          | symbol s' =>
              obtain ⟨⟩ := eq_of_alphaEqual_symbol (position?_head_of_placed hp) h.1
              exact hf ⟨s, rfl, hs⟩
          | _ => cases h.1
        rw [ofTerm_node_of_not_opensMatch i xs hf] at hp
        rw [isLiteral_node i xs hf, isLiteral_node j ys hg, isLiteral_eq_of_placed hp.1 h.1,
          areLiteral_eq_of_placed hp.2 h.2]
  | .symbol _, b, _, h | .magic _, b, _, h | .int _, b, _, h | .float _, b, _, h
  | .text _, b, _, h | .host _, b, _, h => by
      cases b <;> first | cases h | rfl

theorem areLiteral_eq_of_placed {known : Symbol → Prop} : ∀ {xs ys : List Term},
    Pattern.SlotsPlaced names (xs.map Pattern.ofTerm) known →
      alphaEqualAll names names' xs ys = true → areLiteral attrs xs = areLiteral attrs ys
  | [], [], _, _ => rfl
  | x :: xs, y :: ys, hp, h => by
      simp only [alphaEqualAll, Bool.and_eq_true] at h
      rw [areLiteral, areLiteral, isLiteral_eq_of_placed hp.1 h.1, areLiteral_eq_of_placed hp.2 h.2]

end

mutual

/-- A constant with its names in place has none. -/
theorem nameless_of_isLiteral {known : Symbol → Prop} : ∀ {a : Term},
    (Pattern.ofTerm a).Placed names known → a.isLiteral attrs = true → a.Nameless names
  | .node i f xs, hp, hl => by
      rw [ofTerm_node_of_isLiteral hl] at hp
      obtain ⟨hf, hxs⟩ := isLiteral_parts hl
      exact ⟨trivial, nameless_of_isLiteral hp.1 hf, allNameless_of_areLiteral hp.2 hxs⟩
  | .symbol _, hp, _ | .magic _, hp, _ | .int _, hp, _ | .float _, hp, _ | .text _, hp, _
  | .host _, hp, _ => hp

theorem allNameless_of_areLiteral {known : Symbol → Prop} : ∀ {xs : List Term},
    Pattern.SlotsPlaced names (xs.map Pattern.ofTerm) known → areLiteral attrs xs = true →
      AllEvery (AllowedName names fun _ => False) xs
  | [], _, _ => trivial
  | x :: xs, hp, hl => by
      simp only [areLiteral, Bool.and_eq_true] at hl
      exact ⟨nameless_of_isLiteral hp.1 hl.1, allNameless_of_areLiteral hp.2 hl.2⟩

end

mutual

/-- A constant binds no name. -/
theorem not_binds_of_isLiteral {x : Symbol} : ∀ {a : Term}, a.isLiteral attrs = true →
    ¬ (Pattern.ofTerm a).Binds x
  | .node i f xs, hl, hb => by
      rw [ofTerm_node_of_isLiteral hl] at hb
      obtain ⟨hf, hxs⟩ := isLiteral_parts hl
      exact hb.elim (not_binds_of_isLiteral hf) (not_someBinds_of_areLiteral hxs)
  | .symbol _, _, hb | .magic _, _, hb | .int _, _, hb | .float _, _, hb | .text _, _, hb
  | .host _, _, hb => hb

theorem not_someBinds_of_areLiteral {x : Symbol} : ∀ {xs : List Term},
    areLiteral attrs xs = true → ¬ Pattern.SomeBinds x (xs.map Pattern.ofTerm)
  | [], _, hb => hb
  | a :: xs, hl, hb => by
      simp only [areLiteral, Bool.and_eq_true] at hl
      exact hb.elim (not_binds_of_isLiteral hl.1) (not_someBinds_of_areLiteral hl.2)

end

theorem constants_of_placed {a a' : Term} (hp : (Pattern.ofTerm a).Placed names known)
    (h : alphaEqual names names' a a' = true) : bare.Constants () a a' where
  literal _ := isLiteral_eq_of_placed hp h
  like _ hl := strip_eq_of_alphaEqual (nameless_of_isLiteral hp hl) h

end Term

/-! ## agreeing patterns -/

namespace Likeness

open NameCounts Term

variable {names names' : NameCounts} {known : Symbol → Prop}

/-- Patterns correspond up to the names if the names of the first are in their places. -/
abbrev IfPlaced (names names' : NameCounts) (p p' : Pattern) : Prop :=
  ∀ {known : Symbol → Prop}, p.Placed names known →
    bare.Renames (naming names names') (.all bare) () known p p'

theorem renamesEach_of_placed {ps ps' : List Pattern}
    (h : List.Forall₂ (IfPlaced names names') ps ps') (hps : Pattern.EachPlaced names ps known) :
    bare.RenamesEach (naming names names') (.all bare) () known ps ps' := by
  induction h with
  | nil => exact .nil
  | cons hp _ ih => exact .cons (hp hps.1) (ih hps.2)

theorem renamesSlots_of_placed {ps ps' : List Pattern}
    (h : List.Forall₂ (IfPlaced names names') ps ps') (hps : Pattern.SlotsPlaced names ps known) :
    bare.RenamesSlots (naming names names') (.all bare) () known ps ps' := by
  induction h generalizing known with
  | nil => exact .nil
  | cons hp _ ih => exact .cons (hp hps.1) (ih hps.2)

/-- Agreeing arguments of a head read as one kind of pattern syntax, or both as none. -/
theorem rel_form?_of_placed {s : Symbol} {xs ys : List Term} {read read' : List Pattern}
    (h : List.Forall₂ (fun x y => alphaEqual names names' x y = true) xs ys)
    (hread : List.Forall₂ (IfPlaced names names') read read')
    (hrange : s = .repeated → ∀ {x bounds x' bounds' : Term}, xs = [x, bounds] →
      ys = [x', bounds'] → Pattern.range? bounds = Pattern.range? bounds') :
    Option.Rel (IfPlaced names names') (Pattern.form? s xs read) (Pattern.form? s ys read') := by
  have hlike : ∀ {x y : Term}, alphaEqual names names' x y = true → x.Nameless names →
      bare.Like () x y := fun hxy hx => strip_eq_of_alphaEqual hx hxy
  unfold Pattern.form?
  refine rel_ite ?blank (rel_ite ?blankSequence (rel_ite ?blankNullSequence (rel_ite ?pattern
    (rel_ite ?condition (rel_ite ?patternTest (rel_ite ?alternatives (rel_ite_of ?repeated
    (rel_ite ?optional (rel_ite ?hold (rel_ite ?longest (rel_ite ?shortest (rel_ite ?literal
    (rel_ite ?sequence (rel_ite ?except .none))))))))))))))
  case blank | blankSequence | blankNullSequence =>
    rcases h with _ | ⟨hx, _ | ⟨hy, hrest⟩⟩
    · exact .some fun _ => by constructor; exact .none
    · exact .some fun hp => by constructor; exact .some (hlike hx (hp.2 _ rfl))
    · exact .none
  case pattern =>
    rcases h with _ | @⟨x, x', _, _, hx, hrest⟩
    · exact .none
    cases x <;> cases x' <;> first
      | cases hx
      | exact .none
      | rcases hrest with _ | ⟨hy, _ | ⟨hz, hrest⟩⟩ <;>
          rcases hread with _ | ⟨hp, _ | ⟨hq, _ | ⟨hr, hmore⟩⟩⟩ <;> first
            | exact .none
            | exact .some fun hp => .named ((alphaEqual_symbol _ _ _ _).mp hx) (hq hp.2)
  case condition =>
    rcases h with _ | ⟨hx, _ | ⟨hy, _ | ⟨hz, hrest⟩⟩⟩ <;>
      rcases hread with _ | ⟨hp, _ | ⟨hq, _ | ⟨hr, hmore⟩⟩⟩ <;> first
        | exact .none
        | exact .some fun h => .condition (hp h.2.1) fun _ hb =>
            strip_substitute_of_alphaEqual hb h.2.2 hy
  case patternTest =>
    rcases h with _ | ⟨hx, _ | ⟨hy, _ | ⟨hz, hrest⟩⟩⟩ <;>
      rcases hread with _ | ⟨hp, _ | ⟨hq, _ | ⟨hr, hmore⟩⟩⟩ <;> first
        | exact .none
        | exact .some fun h => .tested (hp h.2.1) fun _ ht =>
            bare.call (hlike hy h.2.2) (all_run ht)
  case alternatives => exact .some fun h => .alternatives (renamesEach_of_placed hread h.2)
  case repeated =>
    intro hs
    rcases h with _ | ⟨hx, _ | ⟨hy, _ | ⟨hz, hrest⟩⟩⟩ <;>
      rcases hread with _ | ⟨hp, _ | ⟨hq, _ | ⟨hr, hmore⟩⟩⟩ <;> first
        | exact .none
        | exact .some fun h => .repeated _ _ _ _ (hp h.2.1)
        | skip
    dsimp only
    rw [hrange hs rfl rfl]
    cases Pattern.range? _ with
    | none => exact .none
    | some range => exact .some fun h => .repeated _ _ _ _ (hp h.2.1)
  case optional =>
    rcases h with _ | ⟨hx, _ | ⟨hy, _ | ⟨hz, hrest⟩⟩⟩ <;>
      rcases hread with _ | ⟨hp, _ | ⟨hq, _ | ⟨hr, hmore⟩⟩⟩ <;> first
        | exact .none
        | exact .some fun h => .optional (hp h.2.1) .none fun _ => trivial
        | exact .some fun h => .optional (hp h.2.1) (.some (hlike hy (h.2.2 _ rfl))) fun _ =>
            trivial
  case hold | longest | shortest =>
    rcases hread with _ | ⟨hp, _ | ⟨hq, hmore⟩⟩
    · exact .none
    · exact .some fun h => by constructor; exact hp h.2
    · exact .none
  case sequence => exact .some fun h => .sequence (renamesSlots_of_placed hread h.2)
  case except =>
    rcases hread with _ | ⟨hp, _ | ⟨hq, _ | ⟨hr, hmore⟩⟩⟩
    · exact .none
    · exact .some fun h => .except (hp h.2)
    · exact .some fun h => .exceptThen (hp h.2.1) (hq h.2.2)
    · exact .none
  case literal =>
    rcases h with _ | ⟨hx, _ | ⟨hy, hrest⟩⟩
    · exact .none
    · exact .some fun h => .literal (hlike hx h.2)
    · exact .none

theorem isLiteral_of_bound? {attrs : Symbol → Attributes} {t : Term} {n : Nat}
    (h : Pattern.bound? t = some n) : t.isLiteral attrs = true := by
  cases t with
  | node => cases h
  | _ => rfl

/-- Ranges are constants. -/
theorem isLiteral_of_range? {t : Term} {range : Nat × Nat} (h : Pattern.range? t = some range) :
    t.isLiteral (fun _ => .none) = true := by
  cases t with
  | node i f xs =>
      cases f with
      | symbol s =>
          have hs : s = .list ∨ s = .range := by
            by_contra hs
            simp only [Pattern.range?, hs, if_false] at h
            cases h
          have hxs : areLiteral (fun _ => .none) xs = true := by
            simp only [Pattern.range?, hs, if_true] at h
            rcases xs with _ | ⟨x, _ | ⟨y, _ | ⟨z, xs⟩⟩⟩
            · cases h
            · cases hx : Pattern.bound? x with
              | none =>
                  simp only [hx, Option.map_none] at h
                  cases h
              | some n => simp only [areLiteral, isLiteral_of_bound? hx, Bool.and_self]
            · obtain ⟨n, hx, h⟩ := Option.bind_eq_some_iff.mp h
              obtain ⟨m, hy, -⟩ := Option.bind_eq_some_iff.mp h
              simp only [areLiteral, isLiteral_of_bound? hx, isLiteral_of_bound? hy, Bool.and_self]
            · cases h
          rcases hs with rfl | rfl <;> exact (Bool.true_and _).trans hxs
      | _ => cases h
  | _ => rfl

theorem Constants.range?_eq {t t' : Term} (h : bare.Constants () t t') :
    Pattern.range? t = Pattern.range? t' := by
  by_cases hl : t.isLiteral (fun _ => .none) = true
  · exact Likeness.range?_eq (h.like _ hl)
  · have hl' : ¬ t'.isLiteral (fun _ => .none) = true := h.literal _ ▸ hl
    rw [Option.eq_none_iff_forall_ne_some.mpr fun _ hr => hl (isLiteral_of_range? hr),
      Option.eq_none_iff_forall_ne_some.mpr fun _ hr => hl' (isLiteral_of_range? hr)]

/-- The bounds of a repeated pattern have their names in place, whether they are a range or not. -/
theorem range?_eq_of_placed {i : Nat} {x bounds bounds' : Term}
    (hp : (Pattern.ofTerm (.node i (.symbol .repeated) [x, bounds])).Placed names known)
    (h : alphaEqual names names' bounds bounds' = true) :
    Pattern.range? bounds = Pattern.range? bounds' := by
  obtain ⟨_, p, ⟨⟩, hform, hread⟩ | hcall := Pattern.ofTerm_node i (.symbol .repeated) [x, bounds]
  · obtain ⟨range, -, rfl⟩ := Option.map_eq_some_iff.mp hform
    rw [hread] at hp
    exact bare.range?_eq (w := ()) (strip_eq_of_alphaEqual (hp.2.2 _ rfl) h)
  · rw [hcall] at hp
    exact (constants_of_placed hp.2.2.1 h).range?_eq

mutual

/-- Agreeing terms, the first with its names in place, read as patterns that correspond up to the
names. -/
theorem renames_ofTerm {known : Symbol → Prop} : ∀ {a b : Term},
    alphaEqual names names' a b = true → (Pattern.ofTerm a).Placed names known →
      bare.Renames (naming names names') (.all bare) () known (.ofTerm a) (.ofTerm b)
  | .node i f xs, .node j g ys, h, hp => by
      obtain ⟨hf, hxs⟩ : alphaEqual names names' f g = true ∧
          alphaEqualAll names names' xs ys = true := by
        simpa only [alphaEqual, Bool.and_eq_true] using h
      have hread := forall₂_ofTerms hxs
      have hwhole : Pattern.ofTerm (.node i f xs) =
            .call (.node i f xs) (Pattern.ofTerm f) (Pattern.ofTerms xs) →
          bare.Renames (naming names names') (.all bare) () known
            (.call (.node i f xs) (Pattern.ofTerm f) (Pattern.ofTerms xs))
            (.call (.node j g ys) (Pattern.ofTerm g) (Pattern.ofTerms ys)) := by
        intro hcall
        have hparts := hcall ▸ hp
        exact .call (constants_of_placed hp h) (constants_of_placed hparts.1 hf)
          (fun attrs hl x _ => hcall ▸ not_binds_of_isLiteral hl)
          (renames_ofTerm hf hparts.1) (renamesSlots_of_placed hread hparts.2)
      cases f with
      | symbol s =>
          obtain rfl := eq_of_alphaEqual_symbol (position?_head_of_placed hp) hf
          have hrange : s = .repeated → ∀ {x bounds x' bounds' : Term}, xs = [x, bounds] →
              ys = [x', bounds'] → Pattern.range? bounds = Pattern.range? bounds' := by
            rintro rfl x bounds x' bounds' rfl rfl
            simp only [alphaEqualAll, Bool.and_eq_true] at hxs
            exact range?_eq_of_placed hp hxs.2.1
          have hform := rel_form?_of_placed (forall₂_of_alphaEqualAll hxs) hread hrange
          rw [Pattern.ofTerm] at hp hwhole ⊢
          rw [Pattern.ofTerm]
          generalize Pattern.form? s xs _ = o, Pattern.form? s ys _ = o' at hform hp hwhole
          cases hform with
          | some hform => exact hform hp
          | none => exact hwhole rfl
      | _ =>
          cases g with
          | symbol => cases hf
          | _ => exact hwhole rfl
  | .symbol s, b, h, hp => by
      obtain rfl := eq_of_alphaEqual_symbol (hp.resolve_right id) h
      exact .atom rfl
  | .magic _, b, h, hp | .int _, b, h, hp | .float _, b, h, hp | .text _, b, h, hp
  | .host _, b, h, hp => by
      cases b <;> first | cases h | exact .atom (strip_eq_of_alphaEqual hp h)

theorem forall₂_ofTerms : ∀ {xs ys : List Term}, alphaEqualAll names names' xs ys = true →
    List.Forall₂ (IfPlaced names names') (Pattern.ofTerms xs) (Pattern.ofTerms ys)
  | [], [], _ => .nil
  | x :: xs, y :: ys, h => by
      simp only [alphaEqualAll, Bool.and_eq_true] at h
      exact .cons (renames_ofTerm h.1) (forall₂_ofTerms h.2)

end

end Likeness

end Termwise
