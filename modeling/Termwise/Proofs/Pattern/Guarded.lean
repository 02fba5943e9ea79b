import Termwise.Kernel.SymbolTable
import Termwise.Proofs.Pattern.Shortcuts
import Termwise.Proofs.Pattern.RenamedKey

/-!
# Termwise.Proofs.Pattern.Guarded

Where a pattern with a test stands in the order of specificity
(`compareSpecificity_guarded`).  Put around a pattern, a condition or a predicate makes it
more specific, and so it does in an argument slot of a call that is a pattern itself.  A
call without any pattern in it is a constant and has a single code, the least of all; with
a test in one of its slots it is a constant no more, and less specific than before.

The walk of a guarded pattern has one more code, 0, after its first one, and a 0 put before
codes that are not all 0 comes before them (`compare_guarded_cons`).  The rest of the walk
stays as it is as long as no name of the pattern is a name in the test: names are
counted in tests as well.
-/

namespace Termwise

/-! ## names in terms -/

namespace NameCounts

theorem count_add (names : NameCounts) (name x : Symbol) :
    (names.add name).count x = names.count x + if name = x then 1 else 0 := by
  induction names with
  | nil => by_cases h : name = x <;> simp [add, count, h]
  | cons e rest ih =>
      obtain ⟨n, k⟩ := e
      have hcons : ∀ (k : Nat) (rest : NameCounts),
          count ((n, k) :: rest) x = if n = x then k else count rest x := by
        intro k rest
        by_cases hx : n = x <;> simp [count, hx]
      rw [add]
      by_cases hn : n = name
      · subst hn
        rw [if_pos rfl, hcons, hcons]
        split <;> rfl
      · rw [if_neg hn, hcons, hcons, ih]
        by_cases hx : n = x
        · rw [if_pos hx, if_pos hx, if_neg fun hname => hn (hx.trans hname.symm), Nat.add_zero]
        · rw [if_neg hx, if_neg hx]

end NameCounts

namespace Term

variable {x : Symbol} {names : NameCounts}

/-- Whether a term is a pattern with a given name. -/
def isNamed (x : Symbol) : Term → Bool
  | .node _ (.symbol s) [.symbol name, _] => s == .pattern && name == x
  | _ => false

/-- Whether no pattern in a term has a given name. -/
def Unnamed (x : Symbol) (t : Term) : Prop := t.Every fun s => s.isNamed x = false

/-- Whether no pattern in one term has the name of a pattern in another one. -/
def SharesNoName (p t : Term) : Prop := ∀ x, p.Unnamed x ∨ t.Unnamed x

theorem addAllNames_append (names : NameCounts) (xs ys : List Term) :
    addAllNames names (xs ++ ys) = addAllNames (addAllNames names xs) ys := by
  induction xs generalizing names with
  | nil => rfl
  | cons t ts ih => rw [List.cons_append, addAllNames, addAllNames, ih]

mutual

/-- A term adds to the occurrences of a name those that are in it. -/
theorem count_addNames (x : Symbol) : ∀ (t : Term) (names : NameCounts),
    (t.addNames names).count x = names.count x + t.patternNames.count x
  | .node i f xs, names => by
      by_cases hshape : ∃ name p, f = .symbol .pattern ∧ xs = [.symbol name, p]
      · obtain ⟨name, p, rfl, rfl⟩ := hshape
        rw [patternNames, addNames, addNames, if_pos rfl, if_pos rfl, count_addNames x p,
          count_addNames x p (.add name []), NameCounts.count_add, NameCounts.count_add]
        simp [NameCounts.count, Nat.add_assoc]
      · rw [patternNames, addNames_node names i xs hshape, addNames_node [] i xs hshape,
          count_addAllNames x xs, count_addNames x f, count_addAllNames x xs (f.addNames []),
          patternNames, Nat.add_assoc]
  | .symbol _, _ | .magic _, _ | .int _, _ | .float _, _ | .text _, _ | .host _, _ => rfl

theorem count_addAllNames (x : Symbol) : ∀ (ts : List Term) (names : NameCounts),
    (addAllNames names ts).count x = names.count x + (addAllNames [] ts).count x
  | [], _ => rfl
  | t :: ts, names => by
      rw [addAllNames, addAllNames, count_addAllNames x ts, count_addNames x t,
        count_addAllNames x ts (t.addNames []), patternNames, Nat.add_assoc]

end

/-- The occurrences of a name in a call that is no named pattern are those in its parts. -/
theorem count_patternNames_node (x : Symbol) (i : Nat) {f : Term} (xs : List Term)
    (h : ¬ ∃ name p, f = .symbol .pattern ∧ xs = [.symbol name, p]) :
    (node i f xs).patternNames.count x =
      f.patternNames.count x + (addAllNames [] xs).count x := by
  rw [patternNames, addNames_node [] i xs h, count_addAllNames, ← patternNames]

/-- The occurrences of a name in terms around one of them. -/
theorem count_addAllNames_around (x : Symbol) (before after : List Term) (t : Term) :
    (addAllNames [] (before ++ t :: after)).count x =
      (addAllNames [] before).count x + t.patternNames.count x +
        (addAllNames [] after).count x := by
  rw [addAllNames_append, addAllNames, count_addAllNames, count_addNames]

mutual

theorem count_eq_zero_of_unnamed : ∀ t : Term, t.Unnamed x → t.patternNames.count x = 0
  | .node i f xs, h => by
      by_cases hshape : ∃ name p, f = .symbol .pattern ∧ xs = [.symbol name, p]
      · obtain ⟨name, p, rfl, rfl⟩ := hshape
        have hname : ¬ name = x := by simpa [isNamed] using h.here
        rw [patternNames, addNames, if_pos rfl, count_addNames, NameCounts.count_add, if_neg hname,
          count_eq_zero_of_unnamed p h.2.2.2.1]
        rfl
      · rw [count_patternNames_node x i xs hshape, count_eq_zero_of_unnamed f h.2.1,
          count_eq_zero_of_allUnnamed xs h.2.2]
  | .symbol _, _ | .magic _, _ | .int _, _ | .float _, _ | .text _, _ | .host _, _ => rfl

theorem count_eq_zero_of_allUnnamed : ∀ ts : List Term,
    AllEvery (fun s => s.isNamed x = false) ts → (addAllNames [] ts).count x = 0
  | [], _ => rfl
  | t :: ts, h => by
      rw [addAllNames, count_addAllNames, ← patternNames, count_eq_zero_of_unnamed t h.1,
        count_eq_zero_of_allUnnamed ts h.2]

end

theorem SharesNoName.count {p t : Term} (h : p.SharesNoName t) (hx : p.patternNames.count x ≠ 0) :
    t.patternNames.count x = 0 :=
  count_eq_zero_of_unnamed t ((h x).resolve_left fun hp => hx (count_eq_zero_of_unnamed p hp))

end Term

namespace Pattern

variable {attrs : Symbol → Attributes} {names names' : NameCounts}

/-! ## walks -/

/-- Pattern syntax with a name is a call of the symbol for it, on the name and a pattern. -/
theorem form?_eq_named {s x : Symbol} {args : List Term} {read : List Pattern} {p : Pattern}
    (h : form? s args read = some (named x p)) : s = .pattern ∧ ∃ t, args = [.symbol x, t] := by
  revert h
  unfold form?
  repeat'
    refine iteInduction (motive := fun o => o = some (named x p) →
      s = .pattern ∧ ∃ t, args = [.symbol x, t]) (fun _ => ?_) fun _ => ?_
  all_goals
    try split
    all_goals
      intro h
      first
      | cases h
      | obtain ⟨_, -, h⟩ := Option.map_eq_some_iff.mp h
        cases h
  exact ⟨‹_›, _, rfl⟩

/-- What is read as a pattern with a name is a term with that name. -/
theorem isNamed_of_ofTerm_eq_named {t : Term} {x : Symbol} {p : Pattern}
    (h : ofTerm t = named x p) : t.isNamed x = true := by
  cases t with
  | node i f xs =>
      obtain ⟨s, q, rfl, hform, hq⟩ | hcall := ofTerm_node i f xs
      · rw [h] at hq
        subst hq
        obtain ⟨rfl, t, rfl⟩ := form?_eq_named hform
        simp [Term.isNamed]
      · cases h.symm.trans hcall
  | _ => cases h

mutual

/-- A walk depends on the numbers of occurrences of the names in the pattern alone. -/
theorem specificityKey_congr : ∀ p : Pattern,
    (p.Every fun q => ∀ x body, q = named x body → names.count x = names'.count x) →
      p.specificityKey attrs names = p.specificityKey attrs names'
  | atom _, _ | literal _, _ | blank _, _ | blankSequence _, _ | blankNullSequence _, _
  | except _, _ | exceptThen _ _, _ | alternatives _, _ => rfl
  | named x p, h => by
      simp only [specificityKey, specificityKey_congr p h.2, h.1 x p rfl]
  | hold p, h | longest p, h | shortest p, h | condition p _, h | tested p _, h
  | optional p _, h | repeated p _ _ _, h => by
      simp only [specificityKey, specificityKey_congr p h.2]
  | sequence ps, h => by simp only [specificityKey, specificityKeys_congr ps h.2]
  | call whole head args, h => by
      simp only [specificityKey, specificityKey_congr head h.2.1, specificityKeys_congr args h.2.2]

theorem specificityKeys_congr : ∀ ps : List Pattern,
    AllEvery (fun q => ∀ x body, q = named x body → names.count x = names'.count x) ps →
      specificityKeys attrs names ps = specificityKeys attrs names' ps
  | [], _ => rfl
  | p :: ps, h => by
      rw [specificityKeys, specificityKeys, specificityKey_congr p h.1,
        specificityKeys_congr ps h.2]

end

/-- A walk starts with a code and goes on with codes that are not all 0. -/
theorem exists_specificityKey_eq_cons (attrs : Symbol → Attributes) (names : NameCounts) :
    ∀ p : Pattern, ∃ c rest, p.specificityKey attrs names = c :: rest ∧
      SpecificityKey.close ∈ rest
  | atom _ | literal _ | blank _ | blankSequence _ | blankNullSequence _ | except _
  | exceptThen _ _ | alternatives _ => ⟨_, _, rfl, List.mem_singleton_self _⟩
  | named x p => by
      obtain ⟨c, rest, hkey, hclose⟩ := exists_specificityKey_eq_cons attrs names p
      simp only [specificityKey, hkey]
      split
      · exact ⟨_, _, rfl, List.mem_cons_of_mem _ hclose⟩
      · exact ⟨_, _, rfl, hclose⟩
  | hold p | longest p | shortest p => exists_specificityKey_eq_cons attrs names p
  | condition p _ | tested p _ => by
      obtain ⟨c, rest, hkey, hclose⟩ := exists_specificityKey_eq_cons attrs names p
      simp only [specificityKey, hkey]
      exact ⟨_, _, rfl, List.mem_cons_of_mem _ hclose⟩
  | sequence _ | optional _ _ | repeated _ _ _ _ =>
      ⟨_, _, rfl, List.mem_append_right _ (List.mem_singleton_self _)⟩
  | call whole _ _ => by
      rw [specificityKey]
      split
      · exact ⟨_, _, rfl, List.mem_singleton_self _⟩
      · exact ⟨_, _, rfl, List.mem_append_right _ (List.mem_singleton_self _)⟩

theorem specificityKeys_append (ps qs : List Pattern) :
    specificityKeys attrs names (ps ++ qs) =
      specificityKeys attrs names ps ++ specificityKeys attrs names qs := by
  induction ps with
  | nil => rfl
  | cons p ps ih => rw [List.cons_append, specificityKeys, specificityKeys, ih, List.append_assoc]

end Pattern

namespace SpecificityKey

/-! ## the order of walks with a test -/

theorem compare_append_left (a b c : SpecificityKey) : compare (a ++ b) (a ++ c) = compare b c := by
  induction a with
  | nil => rfl
  | cons x a ih =>
      rw [List.cons_append, List.cons_append, compare, ih, Std.ReflOrd.compare_self]
      rfl

/-- Of codes that are not all 0, more specific ones come about by a 0 before them. -/
theorem compare_guarded_cons {key : SpecificityKey} (h : close ∈ key) :
    compare (guarded :: key) key = .lt := by
  induction key with
  | nil => cases h
  | cons x key ih =>
      rw [compare]
      by_cases hx : x = guarded
      · subst hx
        have hkey : close ∈ key := (List.mem_cons.mp h).resolve_left (by decide)
        rw [ih hkey]
        rfl
      · have hlt : Ord.compare guarded x = .lt := Nat.compare_eq_lt.mpr (Nat.pos_of_ne_zero hx)
        rw [hlt]
        rfl

/-- A walk with the code of a test in it comes before the walk without, whatever is around
it. -/
theorem compare_mark_around {key : SpecificityKey} {c : Nat} {rest : SpecificityKey}
    (hkey : key = c :: rest) (hclose : close ∈ rest) (before after : SpecificityKey) :
    compare (before ++ (mark guarded key ++ after)) (before ++ (key ++ after)) = .lt := by
  subst hkey
  have hafter : close ∈ rest ++ after := List.mem_append_left _ hclose
  rw [compare_append_left, mark, List.cons_append, List.cons_append, List.cons_append, compare,
    compare_guarded_cons hafter, Std.ReflOrd.compare_self]
  rfl

end SpecificityKey

namespace Term

open Pattern

variable {attrs : Symbol → Attributes} {names names' : NameCounts} {s : Symbol}

/-! ## names that are counted -/

theorem count_ne_zero_of_isNamed {t : Term} {x : Symbol} (h : t.isNamed x = true) :
    t.patternNames.count x ≠ 0 := by
  unfold isNamed at h
  split at h
  · rename_i i r name p
    simp only [Bool.and_eq_true, beq_iff_eq] at h
    obtain ⟨rfl, rfl⟩ := h
    rw [patternNames, addNames, if_pos rfl, count_addNames, NameCounts.count_add, if_pos rfl]
    omega
  · cases h

/-- A name occurs in a call as often as in any part of it, at least. -/
theorem count_le_node (x : Symbol) (i : Nat) (f : Term) (xs : List Term) :
    f.patternNames.count x ≤ (node i f xs).patternNames.count x ∧
      ∀ y ∈ xs, y.patternNames.count x ≤ (node i f xs).patternNames.count x := by
  by_cases hshape : ∃ name p, f = .symbol .pattern ∧ xs = [.symbol name, p]
  · obtain ⟨name, p, rfl, rfl⟩ := hshape
    refine ⟨Nat.zero_le _, fun y hy => ?_⟩
    obtain rfl | rfl : y = .symbol name ∨ y = p := by simpa using hy
    · exact Nat.zero_le _
    · rw [patternNames, patternNames, addNames, if_pos rfl, count_addNames x y (.add name [])]
      exact Nat.le_add_left _ _
  · rw [count_patternNames_node x i xs hshape]
    refine ⟨Nat.le_add_right _ _, fun y hy => ?_⟩
    obtain ⟨before, after, rfl⟩ := List.append_of_mem hy
    rw [count_addAllNames_around]
    omega

/-- The walk of a term does not depend on the numbers of occurrences of other names. -/
theorem specificityKey_ofTerm_congr (t : Term)
    (h : ∀ x, t.patternNames.count x ≠ 0 → names.count x = names'.count x) :
    (ofTerm t).specificityKey attrs names = (ofTerm t).specificityKey attrs names' := by
  refine specificityKey_congr _ ((every_ofTerm (r := fun s =>
    ∀ x, s.patternNames.count x ≠ 0 → names.count x = names'.count x) ?_ t h).imp ?_)
  · intro i f xs hnode
    refine ⟨fun x hx => hnode x fun hzero => hx ?_, fun y hy x hx => hnode x fun hzero => hx ?_⟩
    · exact Nat.eq_zero_of_le_zero (hzero ▸ (count_le_node x i f xs).1)
    · exact Nat.eq_zero_of_le_zero (hzero ▸ (count_le_node x i f xs).2 y hy)
  · rintro q ⟨s, hs, rfl⟩ x body hnamed
    exact hs x (count_ne_zero_of_isNamed (isNamed_of_ofTerm_eq_named hnamed))

/-! ## patterns with a test -/

/-- The two symbols that put a test on a pattern. -/
def IsGuard (s : Symbol) : Prop := s = .condition ∨ s = .patternTest

theorem IsGuard.specificityKey (hs : IsGuard s) (i : Nat) (p t : Term) :
    (ofTerm (.node i (.symbol s) [p, t])).specificityKey attrs names =
      .mark SpecificityKey.guarded ((ofTerm p).specificityKey attrs names) := by
  obtain rfl | rfl := hs <;> rfl

/-- A pattern with a test on it has the names of both. -/
theorem IsGuard.count_patternNames (hs : IsGuard s) (i : Nat) (p t : Term) (x : Symbol) :
    (node i (.symbol s) [p, t]).patternNames.count x =
      p.patternNames.count x + t.patternNames.count x := by
  have hshape : ¬ ∃ name q, symbol s = .symbol .pattern ∧ [p, t] = [.symbol name, q] := by
    rintro ⟨name, q, h, -⟩
    obtain rfl | rfl := hs <;> cases h
  rw [count_patternNames_node x i _ hshape, addAllNames, addAllNames, addAllNames, count_addNames,
    ← patternNames]
  exact Nat.zero_add _

/-- A call with a guarded argument is no constant. -/
theorem IsGuard.isLiteral_call (hs : IsGuard s) (i j : Nat) (f : Term) (before after xs : List Term) :
    (node j f (before ++ .node i (.symbol s) xs :: after)).isLiteral attrs = false := by
  have hguard : (node i (.symbol s) xs).isLiteral attrs = false := by
    obtain rfl | rfl := hs <;> rfl
  rw [Bool.eq_false_iff]
  intro hliteral
  have harg := isLiteral_of_mem (isLiteral_parts hliteral).2 _
    (List.mem_append_right before List.mem_cons_self)
  rw [hguard] at harg
  cases harg

section

variable {f : Term} (hf : ∀ r, f = .symbol r → r.isPatternHead = false)

include hf

/-- A test on an argument of a call adds the names in it. -/
theorem IsGuard.count_patternNames_call (hs : IsGuard s) (i j m : Nat) (before after : List Term)
    (p t : Term) (x : Symbol) :
    (node j f (before ++ .node m (.symbol s) [p, t] :: after)).patternNames.count x =
      (node i f (before ++ p :: after)).patternNames.count x + t.patternNames.count x := by
  have hshape : ∀ xs : List Term, ¬ ∃ name q, f = .symbol .pattern ∧ xs = [.symbol name, q] := by
    rintro xs ⟨name, q, rfl, -⟩
    cases hf .pattern rfl
  rw [count_patternNames_node x i _ (hshape _), count_patternNames_node x j _ (hshape _),
    count_addAllNames_around, count_addAllNames_around, hs.count_patternNames]
  omega

/-- The walk of a call that is no pattern syntax, around one of its arguments. -/
theorem specificityKey_call (i : Nat) (before after : List Term) (p : Term) :
    (ofTerm (.node i f (before ++ p :: after))).specificityKey attrs names =
      if (node i f (before ++ p :: after)).isLiteral attrs then .leaf .constant
      else .node .call ((ofTerm f).specificityKey attrs names ++
        (specificityKeys attrs names (before.map ofTerm) ++
          ((ofTerm p).specificityKey attrs names ++
            specificityKeys attrs names (after.map ofTerm)))) := by
  obtain ⟨r, q, rfl, hform, -⟩ | hcall := ofTerm_node i f (before ++ p :: after)
  · rw [form?_eq_none (hf r rfl)] at hform
    cases hform
  · rw [hcall, Pattern.specificityKey, List.map_append, List.map_cons, specificityKeys_append,
      specificityKeys]

end

/-- A condition or a predicate around a pattern makes it more specific.  In an argument slot of a
call it makes the call more specific, unless the call was a constant, which is more specific than
any call.  No name of the pattern, or of the call, is a name in the test. -/
theorem compareSpecificity_guarded (attrs : Symbol → Attributes) (hs : IsGuard s) (m : Nat)
    (p t : Term) :
    (p.SharesNoName t → compareSpecificity attrs (.node m (.symbol s) [p, t]) p = .lt) ∧
      ∀ (i j : Nat) (f : Term) (before after : List Term),
        (∀ r, f = .symbol r → r.isPatternHead = false) →
        (node i f (before ++ p :: after)).SharesNoName t →
        compareSpecificity attrs (.node j f (before ++ .node m (.symbol s) [p, t] :: after))
            (.node i f (before ++ p :: after)) =
          if (node i f (before ++ p :: after)).isLiteral attrs then .gt else .lt := by
  refine ⟨fun hnames => ?_, fun i j f before after hf hnames => ?_⟩
  · -- both walks with the names of the guarded pattern, which has all names of the bare one
    have hbare : p.specificityKey attrs = (ofTerm p).specificityKey attrs
        (node m (.symbol s) [p, t]).patternNames := by
      refine specificityKey_ofTerm_congr p fun x hx => ?_
      rw [hs.count_patternNames, hnames.count hx, Nat.add_zero]
    obtain ⟨c, rest, hkey, hclose⟩ :=
      exists_specificityKey_eq_cons attrs (node m (.symbol s) [p, t]).patternNames (ofTerm p)
    have hlt := SpecificityKey.compare_mark_around hkey hclose [] []
    simp only [List.nil_append, List.append_nil] at hlt
    rw [compareSpecificity, hbare, specificityKey, hs.specificityKey, hlt]
  · have hbare : (node i f (before ++ p :: after)).specificityKey attrs =
        (ofTerm (.node i f (before ++ p :: after))).specificityKey attrs
          (node j f (before ++ .node m (.symbol s) [p, t] :: after)).patternNames := by
      refine specificityKey_ofTerm_congr _ fun x hx => ?_
      rw [hs.count_patternNames_call hf i, hnames.count hx, Nat.add_zero]
    rw [compareSpecificity, hbare, specificityKey, specificityKey_call hf, specificityKey_call hf,
      hs.isLiteral_call, if_neg Bool.false_ne_true, hs.specificityKey]
    generalize (node j f (before ++ .node m (.symbol s) [p, t] :: after)).patternNames = names
    split
    · rfl
    · obtain ⟨c, rest, hkey, hclose⟩ := exists_specificityKey_eq_cons attrs names (ofTerm p)
      have hlt := SpecificityKey.compare_mark_around hkey hclose
        (NodeClass.call.code :: (ofTerm f).specificityKey attrs names ++
          specificityKeys attrs names (before.map ofTerm))
        (specificityKeys attrs names (after.map ofTerm) ++ [SpecificityKey.close])
      simpa only [SpecificityKey.node, List.append_assoc, List.cons_append] using hlt

/-- `f(x_ /; t, 1)` comes before `f(x_, 1)`. -/
theorem compareSpecificity_guarded_argument :
    compareSpecificity (Kernel.new {}).attributes
      (.app ⟨40, "f"⟩ [.app .condition [.app .pattern [.symbol ⟨41, "x"⟩, .app .blank []],
        .symbol ⟨42, "t"⟩], .int 1])
      (.app ⟨40, "f"⟩ [.app .pattern [.symbol ⟨41, "x"⟩, .app .blank []], .int 1]) = .lt := by
  have hcall := (compareSpecificity_guarded (Kernel.new {}).attributes (.inl rfl) 0
    (.app .pattern [.symbol ⟨41, "x"⟩, .app .blank []]) (.symbol ⟨42, "t"⟩)).2 0 0
    (.symbol ⟨40, "f"⟩) [] [.int 1] (fun r hr => by cases hr; rfl) fun x => .inr rfl
  exact hcall

/-- A constant call comes before one with a test in it: `f(1)` before `f(1 /; t)`.  And a name in a
predicate counts: `x_` in the predicate of `y_` puts `f(x:(_ /; t), y_?(x_))` behind
`f(x:(_ /; t), y_)`, and `x:((_ /; t) /; t)?(x_)` behind `x:((_ /; t) /; t)`. -/
theorem compareSpecificity_guarded_constant :
    compareSpecificity (Kernel.new {}).attributes
        (.app ⟨40, "f"⟩ [.app .condition [.int 1, .symbol ⟨42, "t"⟩]])
        (.app ⟨40, "f"⟩ [.int 1]) = .gt ∧
      compareSpecificity (Kernel.new {}).attributes
        (.app ⟨40, "f"⟩
          [.app .pattern [.symbol ⟨41, "x"⟩, .app .condition [.app .blank [], .symbol ⟨42, "t"⟩]],
          .app .patternTest [.app .pattern [.symbol ⟨43, "y"⟩, .app .blank []],
            .app .pattern [.symbol ⟨41, "x"⟩, .app .blank []]]])
        (.app ⟨40, "f"⟩
          [.app .pattern [.symbol ⟨41, "x"⟩, .app .condition [.app .blank [], .symbol ⟨42, "t"⟩]],
          .app .pattern [.symbol ⟨43, "y"⟩, .app .blank []]]) = .gt ∧
      compareSpecificity (Kernel.new {}).attributes
        (.app .patternTest
          [.app .pattern [.symbol ⟨41, "x"⟩, .app .condition
            [.app .condition [.app .blank [], .symbol ⟨42, "t"⟩], .symbol ⟨42, "t"⟩]],
          .app .pattern [.symbol ⟨41, "x"⟩, .app .blank []]])
        (.app .pattern [.symbol ⟨41, "x"⟩, .app .condition
          [.app .condition [.app .blank [], .symbol ⟨42, "t"⟩], .symbol ⟨42, "t"⟩]]) = .gt :=
  ⟨by rfl, by rfl, by rfl⟩

end Term

end Termwise
