import Termwise.Proofs.Pattern.Renaming

/-!
# Termwise.Proofs.Pattern.RenamedKey

Terms that agree up to a renaming of their pattern names have one walk
(`specificityKey_of_alphaEqual`), provided that no name is a symbol of the evaluator, or
flat or orderless: such a symbol says as the head of a call how the call is matched,
and names count there as well.

Names are numbered in the order they first occur in.  So the names of agreeing terms
come with the same numbers of occurrences (`counts_patternNames`).
-/

namespace Termwise

/-! ## numbered names -/

namespace NameCounts

variable {names names' : NameCounts} {x : Symbol} {i : Nat}

/-- The names alone. -/
def keys (names : NameCounts) : List Symbol := names.map (·.1)

/-- The numbers of occurrences alone. -/
def counts (names : NameCounts) : List Nat := names.map (·.2)

theorem position?_eq (names : NameCounts) (x : Symbol) :
    names.position? x = names.keys.findIdx? (· == x) := by
  rw [position?, keys, List.findIdx?_map]
  rfl

theorem position?_inj {y : Symbol} (hx : names.position? x = some i)
    (hy : names.position? y = some i) : x = y := by
  rw [position?_eq, List.findIdx?_eq_some_iff_getElem] at hx hy
  obtain ⟨_, hx, -⟩ := hx
  obtain ⟨_, hy, -⟩ := hy
  exact (beq_iff_eq.mp hx).symm.trans (beq_iff_eq.mp hy)

theorem lt_of_position? (h : names.position? x = some i) : i < names.length := by
  rw [position?, List.findIdx?_eq_some_iff_getElem] at h
  exact h.1

/-- The number of occurrences of a name, by its position. -/
theorem count_eq (names : NameCounts) (x : Symbol) :
    names.count x = ((names.position? x).bind (names.counts[·]?)).getD 0 := by
  induction names with
  | nil => rfl
  | cons e rest ih =>
      simp only [count, position?, counts] at ih ⊢
      by_cases he : (e.1 == x) = true
      · simp [List.findIdx?_cons, he]
      · rw [List.find?_cons_of_neg (by exact he), List.findIdx?_cons, if_neg he, ih]
        cases List.findIdx? (fun e : Symbol × Nat => e.1 == x) rest <;> simp

/-- A name that occurs early keeps its position when more names come. -/
theorem position?_of_early (h : names.keys <+: names'.keys) (hx : names.position? x = some i) :
    names'.position? x = some i := by
  obtain ⟨more, hmore⟩ := h
  rw [position?_eq] at *
  rw [← hmore, List.findIdx?_append, hx]
  rfl

theorem position?_of_lt (h : names.keys <+: names'.keys) (hx : names'.position? x = some i)
    (hi : i < names.length) : names.position? x = some i := by
  cases hposition : names.position? x with
  | some j => rw [← hx, position?_of_early h hposition]
  | none =>
      obtain ⟨more, hmore⟩ := h
      rw [position?_eq] at hposition hx
      rw [← hmore, List.findIdx?_append, hposition] at hx
      obtain ⟨j, -, hj⟩ := Option.map_eq_some_iff.mp hx
      have hlen : names.keys.length = names.length := by simp [keys]
      omega

/-- One more occurrence of a new name. -/
theorem add_of_none (h : names.position? x = none) : names.add x = names ++ [(x, 1)] := by
  induction names with
  | nil => rfl
  | cons e rest ih =>
      rw [position?, List.findIdx?_cons] at h
      split at h
      · cases h
      · rename_i he
        rw [add, if_neg (by simpa using he), ih (by simpa [position?] using h)]
        rfl

/-- One more occurrence of a name that has occurred. -/
theorem add_of_some (h : names.position? x = some i) :
    (names.add x).keys = names.keys ∧ (names.add x).counts = names.counts.modify i (· + 1) := by
  induction names generalizing i with
  | nil => cases h
  | cons e rest ih =>
      rw [position?, List.findIdx?_cons] at h
      split at h
      · rename_i he
        cases h
        rw [add, if_pos (by simpa using he)]
        exact ⟨rfl, rfl⟩
      · rename_i he
        obtain ⟨j, hj, rfl⟩ := Option.map_eq_some_iff.mp h
        obtain ⟨hkeys, hcounts⟩ := ih hj
        rw [add, if_neg (by simpa using he)]
        simp only [keys, counts, List.map_cons] at hkeys hcounts ⊢
        rw [hkeys, hcounts]
        exact ⟨rfl, rfl⟩

theorem prefix_add (names : NameCounts) (x : Symbol) : names.keys <+: (names.add x).keys := by
  cases h : names.position? x with
  | none =>
      rw [add_of_none h, keys, keys, List.map_append]
      exact List.prefix_append _ _
  | some i =>
      have hkeys : (names.add x).keys = names.keys := (add_of_some h).1
      exact hkeys.symm ▸ List.prefix_refl _

end NameCounts

/-- A symbol that says nothing about how calls of it are matched, or about ranges. -/
def Symbol.Inert (attrs : Symbol → Attributes) (s : Symbol) : Prop :=
  s.opensMatch attrs = false ∧ s ∉ Symbol.system

theorem Symbol.Inert.ne {attrs : Symbol → Attributes} {s r : Symbol} (h : s.Inert attrs)
    (hr : r ∈ Symbol.system) : s ≠ r := fun hsr => h.2 (hsr ▸ hr)

theorem Symbol.Inert.isPatternHead {attrs : Symbol → Attributes} {s : Symbol} (h : s.Inert attrs) :
    s.isPatternHead = false := by
  have hopens := h.1
  simp only [opensMatch, Bool.or_eq_false_iff] at hopens
  exact hopens.1.1

/-- No name is a symbol of the evaluator, or flat or orderless. -/
def NameCounts.Inert (attrs : Symbol → Attributes) (names : NameCounts) : Prop :=
  ∀ x ∈ names.keys, x.Inert attrs

namespace Term

open NameCounts

variable {attrs : Symbol → Attributes} {names names' : NameCounts}

/-- Agreeing symbols are equal, or names. -/
theorem eq_or_inert_of_alphaEqual (hnames : names.Inert attrs) (hnames' : names'.Inert attrs)
    {s s' : Symbol} (h : alphaEqual names names' (.symbol s) (.symbol s') = true) :
    s = s' ∨ s.Inert attrs ∧ s'.Inert attrs := by
  rw [alphaEqual_symbol] at h
  have hmem : ∀ (names : NameCounts) (x : Symbol) (i : Nat), names.position? x = some i →
      x ∈ names.keys := by
    intro names x i hi
    rw [position?_eq, List.findIdx?_eq_some_iff_getElem] at hi
    obtain ⟨hlt, hx, -⟩ := hi
    rw [← beq_iff_eq.mp hx]
    exact List.getElem_mem hlt
  cases hs : names.position? s with
  | none => exact .inl (h.2 hs)
  | some i =>
      exact .inr ⟨hnames s (hmem _ _ _ hs), hnames' s' (hmem _ _ _ (h.1.symm.trans hs))⟩

/-! ## numbers of occurrences -/

mutual

/-- The names of a term come after those counted before. -/
theorem prefix_addNames : ∀ (t : Term) (acc : NameCounts), acc.keys <+: (t.addNames acc).keys
  | .node i f xs, acc => by
      by_cases hshape : ∃ name p, f = .symbol .pattern ∧ xs = [.symbol name, p]
      · obtain ⟨name, p, rfl, rfl⟩ := hshape
        rw [addNames, if_pos rfl]
        exact (prefix_add acc name).trans (prefix_addNames p _)
      · rw [addNames_node acc i xs hshape]
        exact (prefix_addNames f acc).trans (prefix_addAllNames xs _)
  | .symbol _, _ | .magic _, _ | .int _, _ | .float _, _ | .text _, _ | .host _, _ =>
      List.prefix_refl _

theorem prefix_addAllNames : ∀ (ts : List Term) (acc : NameCounts),
    acc.keys <+: (addAllNames acc ts).keys
  | [], _ => List.prefix_refl _
  | t :: ts, acc => (prefix_addNames t acc).trans (prefix_addAllNames ts _)

end

/-- One more occurrence of agreeing names. -/
theorem counts_add {x y : Symbol} {acc acc' : NameCounts}
    (h : alphaEqual names names' (.symbol x) (.symbol y) = true)
    (hacc : acc.counts = acc'.counts) (hx : (acc.add x).keys <+: names.keys)
    (hy : (acc'.add y).keys <+: names'.keys) : (acc.add x).counts = (acc'.add y).counts := by
  have hlen : acc.length = acc'.length := by simpa [counts] using congrArg List.length hacc
  have hx' := (prefix_add acc x).trans hx
  have hy' := (prefix_add acc' y).trans hy
  rw [alphaEqual_symbol] at h
  cases hposition : acc.position? x with
  | some i =>
      have hi := lt_of_position? hposition
      have hposition' : acc'.position? y = some i :=
        position?_of_lt hy' (h.1.symm.trans (position?_of_early hx' hposition)) (hlen ▸ hi)
      rw [(add_of_some hposition).2, (add_of_some hposition').2, hacc]
  | none =>
      cases hposition' : acc'.position? y with
      | some i =>
          have hi := lt_of_position? hposition'
          have hposition'' := position?_of_lt hx'
            (h.1.trans (position?_of_early hy' hposition')) (hlen ▸ hi)
          rw [hposition''] at hposition
          cases hposition
      | none =>
          rw [add_of_none hposition, add_of_none hposition']
          simp only [counts, List.map_append] at hacc ⊢
          rw [hacc]
          rfl

/-- A symbol of the evaluator agrees with itself only. -/
theorem eq_of_alphaEqual_system (hnames : names.Inert attrs) (hnames' : names'.Inert attrs)
    {s : Symbol} (hs : s ∈ Symbol.system) {g : Term}
    (h : alphaEqual names names' (.symbol s) g = true) : g = .symbol s := by
  cases g with
  | symbol s' =>
      obtain rfl | ⟨hinert, -⟩ := eq_or_inert_of_alphaEqual hnames hnames' h
      · rfl
      · exact absurd hs hinert.2
  | _ => cases h

/-- What agrees with a named pattern is a named pattern. -/
theorem exists_named_of_alphaEqual (hnames : names.Inert attrs) (hnames' : names'.Inert attrs)
    {name : Symbol} {p g : Term} {ys : List Term}
    (hg : alphaEqual names names' (.symbol .pattern) g = true)
    (hys : alphaEqualAll names names' [.symbol name, p] ys = true) :
    ∃ name' p', g = .symbol .pattern ∧ ys = [.symbol name', p'] ∧
      alphaEqual names names' (.symbol name) (.symbol name') = true ∧
      alphaEqual names names' p p' = true := by
  have hpattern := eq_of_alphaEqual_system hnames hnames' (by decide) hg
  match ys, hys with
  | [y, p'], hys =>
      simp only [alphaEqualAll, Bool.and_eq_true] at hys
      cases y with
      | symbol name' => exact ⟨name', p', hpattern, rfl, hys.1, hys.2.1⟩
      | _ => cases hys.1
  | [_], hys | _ :: _ :: _ :: _, hys => simp [alphaEqualAll] at hys

mutual

/-- Agreeing terms add the same numbers of occurrences. -/
theorem counts_addNames (hnames : names.Inert attrs) (hnames' : names'.Inert attrs) :
    ∀ (a b : Term) (acc acc' : NameCounts), alphaEqual names names' a b = true →
      acc.counts = acc'.counts → (a.addNames acc).keys <+: names.keys →
      (b.addNames acc').keys <+: names'.keys →
      (a.addNames acc).counts = (b.addNames acc').counts
  | .node i f xs, .node j g ys, acc, acc', h, hacc, ha, hb => by
      simp only [alphaEqual, Bool.and_eq_true] at h
      by_cases hshape : ∃ name p, f = .symbol .pattern ∧ xs = [.symbol name, p]
      · obtain ⟨name, p, rfl, rfl⟩ := hshape
        obtain ⟨name', p', rfl, rfl, hname, hp⟩ :=
          exists_named_of_alphaEqual hnames hnames' h.1 h.2
        rw [addNames, if_pos rfl] at ha hb ⊢
        rw [addNames, if_pos rfl]
        have hadd := counts_add hname hacc ((prefix_addNames p _).trans ha)
          ((prefix_addNames p' _).trans hb)
        exact counts_addNames hnames hnames' p p' _ _ hp hadd ha hb
      · have hshape' : ¬ ∃ name p, g = .symbol .pattern ∧ ys = [.symbol name, p] := by
          rintro ⟨name, p, rfl, rfl⟩
          obtain ⟨name', p', hf, hxs, -⟩ := exists_named_of_alphaEqual hnames' hnames
            (alphaEqual_symm _ _ _ _ h.1) (alphaEqualAll_symm _ _ _ _ h.2)
          exact hshape ⟨name', p', hf, hxs⟩
        rw [addNames_node acc i xs hshape] at ha ⊢
        rw [addNames_node acc' j ys hshape'] at hb ⊢
        have hf := counts_addNames hnames hnames' f g acc acc' h.1 hacc
          ((prefix_addAllNames xs _).trans ha) ((prefix_addAllNames ys _).trans hb)
        exact counts_addAllNames hnames hnames' xs ys _ _ h.2 hf ha hb
  | .symbol _, .symbol _, _, _, _, hacc, _, _ => hacc
  | .magic _, .magic _, _, _, _, hacc, _, _ | .int _, .int _, _, _, _, hacc, _, _
  | .float _, .float _, _, _, _, hacc, _, _ | .text _, .text _, _, _, _, hacc, _, _
  | .host _, .host _, _, _, _, hacc, _, _ => hacc

theorem counts_addAllNames (hnames : names.Inert attrs) (hnames' : names'.Inert attrs) :
    ∀ (as bs : List Term) (acc acc' : NameCounts), alphaEqualAll names names' as bs = true →
      acc.counts = acc'.counts → (addAllNames acc as).keys <+: names.keys →
      (addAllNames acc' bs).keys <+: names'.keys →
      (addAllNames acc as).counts = (addAllNames acc' bs).counts
  | [], [], _, _, _, hacc, _, _ => hacc
  | a :: as, b :: bs, acc, acc', h, hacc, ha, hb => by
      simp only [alphaEqualAll, Bool.and_eq_true] at h
      rw [addAllNames] at ha hb ⊢
      rw [addAllNames]
      have hhead := counts_addNames hnames hnames' a b acc acc' h.1 hacc
        ((prefix_addAllNames as _).trans ha) ((prefix_addAllNames bs _).trans hb)
      exact counts_addAllNames hnames hnames' as bs _ _ h.2 hhead ha hb

end

/-- Agreeing terms have names with the same numbers of occurrences. -/
theorem counts_patternNames {a b : Term} (ha : a.patternNames.Inert attrs)
    (hb : b.patternNames.Inert attrs)
    (h : alphaEqual a.patternNames b.patternNames a b = true) :
    a.patternNames.counts = b.patternNames.counts :=
  counts_addNames ha hb a b [] [] h rfl (List.prefix_refl _) (List.prefix_refl _)

/-! ## walks -/

/-- Names and their numbers of occurrences in two agreeing terms. -/
structure Renamed (attrs : Symbol → Attributes) (names names' : NameCounts) : Prop where
  left : names.Inert attrs
  right : names'.Inert attrs
  counts : names.counts = names'.counts

theorem Renamed.count (h : Renamed attrs names names') {x y : Symbol}
    (hxy : alphaEqual names names' (.symbol x) (.symbol y) = true) :
    names.count x = names'.count y := by
  rw [alphaEqual_symbol] at hxy
  rw [count_eq, count_eq, hxy.1, h.counts]

mutual

/-- Agreeing terms are literal alike. -/
theorem isLiteral_of_alphaEqual (h : Renamed attrs names names') : ∀ a b : Term,
    alphaEqual names names' a b = true → a.isLiteral attrs = b.isLiteral attrs
  | .node i f xs, .node j g ys, hab => by
      simp only [alphaEqual, Bool.and_eq_true] at hab
      have hxs := areLiteral_of_alphaEqual h xs ys hab.2
      have hf := isLiteral_of_alphaEqual h f g hab.1
      cases f with
      | symbol s =>
          cases g with
          | symbol s' =>
              obtain rfl | ⟨hs, hs'⟩ := eq_or_inert_of_alphaEqual h.left h.right hab.1
              · simp only [isLiteral, hxs]
              · simp only [isLiteral, hxs, hs.1, hs'.1]
          | _ => cases hab.1
      | _ =>
          cases g with
          | symbol => cases hab.1
          | _ => simp only [isLiteral, hxs] at hf ⊢ <;> simp [hf]
  | .symbol _, .symbol _, _ | .magic _, .magic _, _ | .int _, .int _, _ | .float _, .float _, _
  | .text _, .text _, _ | .host _, .host _, _ => rfl

theorem areLiteral_of_alphaEqual (h : Renamed attrs names names') : ∀ as bs : List Term,
    alphaEqualAll names names' as bs = true → areLiteral attrs as = areLiteral attrs bs
  | [], [], _ => rfl
  | a :: as, b :: bs, hab => by
      simp only [alphaEqualAll, Bool.and_eq_true] at hab
      simp only [areLiteral, isLiteral_of_alphaEqual h a b hab.1,
        areLiteral_of_alphaEqual h as bs hab.2]

end

theorem bound?_of_alphaEqual (h : Renamed attrs names names') {a b : Term}
    (hab : alphaEqual names names' a b = true) : Pattern.bound? a = Pattern.bound? b := by
  cases a with
  | symbol s =>
      cases b with
      | symbol s' =>
          obtain rfl | ⟨hs, hs'⟩ := eq_or_inert_of_alphaEqual h.left h.right hab
          · rfl
          · have hinfinity : Symbol.infinity ∈ Symbol.system := by decide
            have hautomatic : Symbol.automatic ∈ Symbol.system := by decide
            simp [Pattern.bound?, hs.ne hinfinity, hs.ne hautomatic, hs'.ne hinfinity,
              hs'.ne hautomatic]
      | _ => cases hab
  | int n =>
      cases b with
      | int n' =>
          have hn : n = n' := by simpa [alphaEqual, beq_def, equal] using hab
          rw [hn]
      | _ => cases hab
  | _ => cases b <;> first | rfl | cases hab

/-- Agreeing ranges allow the same counts. -/
theorem range?_of_alphaEqual (h : Renamed attrs names names') {a b : Term}
    (hab : alphaEqual names names' a b = true) : Pattern.range? a = Pattern.range? b := by
  cases a with
  | node i f xs =>
      cases b with
      | node j g ys =>
          simp only [alphaEqual, Bool.and_eq_true] at hab
          cases f with
          | symbol s =>
              cases g with
              | symbol s' =>
                  obtain rfl | ⟨hs, hs'⟩ := eq_or_inert_of_alphaEqual h.left h.right hab.1
                  · rcases xs with _ | ⟨x, _ | ⟨x', _ | ⟨x'', xs⟩⟩⟩ <;>
                      rcases ys with _ | ⟨y, _ | ⟨y', _ | ⟨y'', ys⟩⟩⟩
                    all_goals
                      simp only [alphaEqualAll, Bool.and_eq_true, Bool.and_true,
                        Bool.false_eq_true, and_false] at hab
                    · rfl
                    · simp [Pattern.range?, bound?_of_alphaEqual h hab.2]
                    · simp [Pattern.range?, bound?_of_alphaEqual h hab.2.1,
                        bound?_of_alphaEqual h hab.2.2]
                    · rfl
                  · have hlist : Symbol.list ∈ Symbol.system := by decide
                    have hrange : Symbol.range ∈ Symbol.system := by decide
                    simp [Pattern.range?, hs.ne hlist, hs.ne hrange, hs'.ne hlist,
                      hs'.ne hrange]
              | _ => cases hab.1
          | _ =>
              cases g with
              | symbol => cases hab.1
              | _ => rfl
      | _ => cases hab
  | int n =>
      cases b with
      | int n' =>
          have hn : n = n' := by simpa [alphaEqual, beq_def, equal] using hab
          rw [hn]
      | _ => cases hab
  | _ => cases b <;> first | rfl | cases hab

theorem specificityKeys_eq {ps qs : List Pattern}
    (h : ps.map (·.specificityKey attrs names) = qs.map (·.specificityKey attrs names')) :
    Pattern.specificityKeys attrs names ps = Pattern.specificityKeys attrs names' qs := by
  have hflatten : ∀ (names : NameCounts) (ps : List Pattern),
      Pattern.specificityKeys attrs names ps =
        (ps.map (·.specificityKey attrs names)).flatten := by
    intro names ps
    induction ps with
    | nil => rfl
    | cons p ps ih => rw [Pattern.specificityKeys, ih, List.map_cons, List.flatten_cons]
  rw [hflatten, hflatten, h]

theorem map_ite_congr {α β γ : Type} {c : Prop} [Decidable c] {x y : Option α} {x' y' : Option β}
    {f : α → γ} {g : β → γ} (hx : x.map f = x'.map g) (hy : y.map f = y'.map g) :
    (if c then x else y).map f = (if c then x' else y').map g := by
  split
  · exact hx
  · exact hy

/-- Calls with agreeing parts are pattern syntax alike. -/
theorem form?_of_alphaEqual (h : Renamed attrs names names') (s : Symbol) {xs ys : List Term}
    (hxs : alphaEqualAll names names' xs ys = true)
    (hwalks : (xs.map Pattern.ofTerm).map (·.specificityKey attrs names) =
      (ys.map Pattern.ofTerm).map (·.specificityKey attrs names')) :
    (Pattern.form? s xs (xs.map Pattern.ofTerm)).map (·.specificityKey attrs names) =
      (Pattern.form? s ys (ys.map Pattern.ofTerm)).map (·.specificityKey attrs names') := by
  have hall := specificityKeys_eq hwalks
  rcases xs with _ | ⟨x, _ | ⟨x', _ | ⟨x'', xs⟩⟩⟩ <;>
    rcases ys with _ | ⟨y, _ | ⟨y', _ | ⟨y'', ys⟩⟩⟩
  all_goals
    simp only [alphaEqualAll, Bool.and_eq_true, Bool.and_true, Bool.false_eq_true, and_false] at hxs
  all_goals
    simp only [List.map_cons, List.map_nil, List.cons.injEq, and_true] at hwalks hall ⊢
    unfold Pattern.form?
    repeat' apply map_ite_congr
  all_goals try simp [Pattern.specificityKey, hwalks, hall]
  -- left: the name of a named pattern, and the range of a repetition
  · cases x with
    | symbol s =>
        cases y with
        | symbol s' => simp [Pattern.specificityKey, hwalks, h.count hxs.1]
        | _ => cases hxs.1
    | _ =>
        cases y with
        | symbol => cases hxs.1
        | _ => rfl
  · rw [range?_of_alphaEqual h hxs.2]
    simp [Function.comp_def, Pattern.specificityKey, hwalks]

mutual

/-- Agreeing terms have one walk. -/
theorem sameWalk_ofTerm (h : Renamed attrs names names') : ∀ a b : Term,
    alphaEqual names names' a b = true →
      (Pattern.ofTerm a).specificityKey attrs names = (Pattern.ofTerm b).specificityKey attrs names'
  | .node i f xs, .node j g ys, hab => by
      have hliteral := isLiteral_of_alphaEqual h _ _ hab
      simp only [alphaEqual, Bool.and_eq_true] at hab
      have hf := sameWalk_ofTerm h f g hab.1
      have hxs := sameWalk_ofTerms h xs ys hab.2
      have hcall : (Pattern.call (.node i f xs) (Pattern.ofTerm f)
            (xs.map Pattern.ofTerm)).specificityKey attrs names =
          (Pattern.call (.node j g ys) (Pattern.ofTerm g)
            (ys.map Pattern.ofTerm)).specificityKey attrs names' := by
        rw [Pattern.specificityKey, Pattern.specificityKey, hliteral, hf, specificityKeys_eq hxs]
      cases f with
      | symbol s =>
          cases g with
          | symbol s' =>
              have hform : (Pattern.form? s xs (xs.map Pattern.ofTerm)).map
                    (·.specificityKey attrs names) =
                  (Pattern.form? s' ys (ys.map Pattern.ofTerm)).map
                    (·.specificityKey attrs names') := by
                obtain rfl | ⟨hs, hs'⟩ := eq_or_inert_of_alphaEqual h.left h.right hab.1
                · exact form?_of_alphaEqual h s hab.2 hxs
                · rw [Pattern.form?_eq_none hs.isPatternHead,
                    Pattern.form?_eq_none hs'.isPatternHead]
                  rfl
              simp only [Pattern.ofTerm, Pattern.ofTerms_eq_map] at hcall ⊢
              rw [← Option.getD_map (Pattern.specificityKey attrs names), hform, hcall,
                Option.getD_map]
          | _ => cases hab.1
      | _ =>
          cases g with
          | symbol => cases hab.1
          | _ => simpa only [Pattern.ofTerm, Pattern.ofTerms_eq_map] using hcall
  | .symbol _, .symbol _, _ | .magic _, .magic _, _ | .int _, .int _, _ | .float _, .float _, _
  | .text _, .text _, _ | .host _, .host _, _ => rfl

theorem sameWalk_ofTerms (h : Renamed attrs names names') : ∀ as bs : List Term,
    alphaEqualAll names names' as bs = true →
      (as.map Pattern.ofTerm).map (·.specificityKey attrs names) =
        (bs.map Pattern.ofTerm).map (·.specificityKey attrs names')
  | [], [], _ => rfl
  | a :: as, b :: bs, hab => by
      simp only [alphaEqualAll, Bool.and_eq_true] at hab
      rw [List.map_cons, List.map_cons, List.map_cons, List.map_cons,
        sameWalk_ofTerm h a b hab.1, sameWalk_ofTerms h as bs hab.2]

end

/-- Terms that agree up to a renaming of their names have one walk. -/
theorem specificityKey_of_alphaEqual {a b : Term} (ha : a.patternNames.Inert attrs)
    (hb : b.patternNames.Inert attrs)
    (h : alphaEqual a.patternNames b.patternNames a b = true) :
    a.specificityKey attrs = b.specificityKey attrs :=
  sameWalk_ofTerm ⟨ha, hb, counts_patternNames ha hb h⟩ a b h

end Term

end Termwise
