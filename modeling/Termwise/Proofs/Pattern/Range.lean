import Termwise.Proofs.Pattern.Fits
import Termwise.Proofs.Pattern.Length

/-!
# Termwise.Proofs.Pattern.Range

Sizes lose no match, whatever evaluation does.  `Proofs.Pattern.Length` counts the
terms of solutions in a world of fixed answers; here tests, attributes and implicit
defaults may come out differently every time (`Pattern.Fits`).

* `extends_of_fits` — what a pattern may match under keeps what was bound before;
* `allows_of_fits` — the number of terms that a pattern may match lies within the size that was
  computed under any earlier bindings;
* `inRange_of_fitsSlots`, `inRange_of_fitsAnywhere` — slots that may take all arguments of a call
  take a number of them within `totalRange`;
* `search_call` — a search fills the slots of a call (`fill`) after it has compared the number of
  arguments with that range (`fillWithin`), and `yields_fill` — it finds nothing outside the range.
-/

namespace Termwise

/-! ## runs of plain terms -/

namespace Term

/-- A term that stands for terms none of which is a run itself, of a number that a machine word
holds. -/
structure PlainRun (t : Term) : Prop where
  fits : t.run.length ≤ Pattern.unbounded
  plain : ∀ x ∈ t.run, x.isMarker = false

theorem length_run_congr {s t : Term} (h : s.strip = t.strip) : s.run.length = t.run.length := by
  have hrun : s.run.map strip = t.run.map strip := by rw [← run_strip, h, run_strip]
  simpa using congrArg List.length hrun

theorem plainRun_congr {s t : Term} (h : s.strip = t.strip) (ht : t.PlainRun) : s.PlainRun := by
  refine ⟨length_run_congr h ▸ ht.fits, fun x hx => ?_⟩
  have hmem : x.strip ∈ t.run.map strip := by
    rw [← run_strip, ← h, run_strip]
    exact List.mem_map_of_mem hx
  obtain ⟨y, hy, hyx⟩ := List.mem_map.mp hmem
  rw [← isMarker_strip, ← hyx, isMarker_strip]
  exact ht.plain y hy

end Term

namespace Size

variable {s : Size} {items : List Term} {value : Term}

/-- The value of a slot stands for as many terms as it was made from. -/
theorem length_run_of_value (h : ∀ x ∈ items, x.isMarker = false)
    (hvalue : value.strip = (s.value none items).strip) : value.run.length = items.length := by
  rw [Term.length_run_congr hvalue, run_value s h]

theorem plainRun_of_value (hlen : items.length ≤ Pattern.unbounded)
    (h : ∀ x ∈ items, x.isMarker = false) (hvalue : value.strip = (s.value none items).strip) :
    value.PlainRun :=
  Term.plainRun_congr hvalue ⟨by rwa [run_value s h], by rwa [run_value s h]⟩

end Size

namespace Pattern

variable {w : Outcomes} {b₀ : Bindings}

/-! ## growth -/

theorem extends_of_repeats {size : Bindings → Size} {one : Term → Bindings → Bindings → Prop}
    (hone : ∀ {t b b'}, one t b b' → b'.Extends b) {least most : Nat} {items : List Term}
    {count : Nat} {b b' : Bindings} (h : Repeats size one least most items count b b') :
    b'.Extends b := by
  induction h with
  | done => exact .refl _
  | step _ _ _ _ hfits _ ih => exact ih.trans (hone hfits)

mutual

/-- What a pattern may match under keeps everything that was bound before. -/
theorem extends_of_fits : ∀ (p : Pattern) {t : Term} {b b' : Bindings}, p.Fits w t b b' →
    b'.Extends b
  | atom _, _, _, _, h | literal _, _, _, _, h | blank _, _, _, _, h
  | blankNullSequence _, _, _, _, h => h.2 ▸ .refl _
  | blankSequence _, _, _, _, h | except _, _, _, _, h => h.2.2 ▸ .refl _
  | named name p, t, b, b', h => by
      rw [Fits] at h
      cases hname : b.get? name with
      | some value =>
          rw [hname] at h
          exact extends_of_fits p h.2
      | none =>
          rw [hname] at h
          exact (extends_of_fits p h).trans (Bindings.grown_push hname t).extends
  | condition p _, _, _, _, h | tested p _, _, _, _, h => extends_of_fits p h.1
  | exceptThen _ p, _, _, _, h => extends_of_fits p h.2
  | hold p, _, _, _, h | longest p, _, _, _, h | shortest p, _, _, _, h => extends_of_fits p h
  | alternatives ps, _, _, _, h => extends_of_fitsAny ps h
  | repeated p _ _ _, _, _, _, h => extends_of_repeats (extends_of_fits p) h
  | optional p default, t, b, b', h => by
      by_cases hempty : (t.isMarker && t.args.isEmpty) = true
      · cases default with
        | some d =>
            rw [Fits, if_pos hempty] at h
            exact extends_of_fits p h
        | none =>
            rw [Fits, if_pos hempty] at h
            obtain ⟨d, -, h⟩ := h
            exact extends_of_fits p h
      · cases default <;> rw [Fits, if_neg hempty] at h <;> exact extends_of_fits p h
  | sequence ps, _, _, _, h => extends_of_fitsSlots ps h
  | call _ head args, t, b, b', h => by
      obtain ⟨_, -, ⟨-, -, -, -, rfl⟩ | ⟨-, -, -, i, f, xs, b₁, -, hhead, attrs, -, hargs⟩⟩ := h
      · exact .refl _
      · refine Bindings.Extends.trans ?_ (extends_of_fits head hhead)
        dsimp only at hargs
        split at hargs
        · exact extends_of_fitsAnywhere args hargs
        · exact extends_of_fitsSlots args hargs

theorem extends_of_fitsAny : ∀ (ps : List Pattern) {t : Term} {b b' : Bindings},
    FitsAny w ps t b b' → b'.Extends b
  | [], _, _, _, h => h.elim
  | p :: ps, _, _, _, h => h.elim (extends_of_fits p) (extends_of_fitsAny ps)

theorem extends_of_fitsSlots : ∀ (ps : List Pattern) {flat : Option Term} {args : List Term}
    {b b' : Bindings}, FitsSlots w ps flat args b b' → b'.Extends b
  | [], _, _, _, _, h => h.2 ▸ .refl _
  | p :: ps, _, _, _, _, h => by
      obtain ⟨n, -, value, b₁, -, hfits, hrest⟩ := h
      exact (extends_of_fitsSlots ps hrest).trans (extends_of_fits p hfits)

theorem extends_of_fitsAnywhere : ∀ (ps : List Pattern) {flat : Option Term} {args : List Term}
    {b b' : Bindings}, FitsAnywhere w ps flat args b b' → b'.Extends b
  | [], _, _, _, _, h => h.2 ▸ .refl _
  | p :: ps, _, _, _, _, h => by
      obtain ⟨n, -, taken, left, -, value, b₁, -, hfits, hrest⟩ := h
      exact (extends_of_fitsAnywhere ps hrest).trans (extends_of_fits p hfits)

end

/-! ## numbers of terms -/

/-- Repetitions of a pattern that takes a number of terms within `s` take a number of them within
the multiples of `s`. -/
theorem length_of_repeats {size : Bindings → Size} {s : Size}
    {one : Term → Bindings → Bindings → Prop} {least most : Nat}
    (hone : ∀ {t b b'}, t.PlainRun → b.Extends b₀ → one t b b' →
      b'.Extends b ∧ s.Allows t.run.length)
    {items : List Term} {count : Nat} {b b' : Bindings}
    (h : Repeats size one least most items count b b') (hb : b.Extends b₀)
    (hitems : ∀ x ∈ items, x.isMarker = false) (hlen : items.length ≤ unbounded)
    (hcount : count ≤ most) :
    ∃ k, (least ≤ count + k ∧ count + k ≤ most) ∧
      k * s.least ≤ items.length ∧ items.length ≤ k * s.most := by
  induction h with
  | done hleast => exact ⟨0, ⟨hleast, hcount⟩, by simp⟩
  | @step items count n b b₁ b' value hlt hn _ hvalue hfits _ ih =>
      have hle := (Size.mem_counts.mp hn).2.2
      have htake : ∀ x ∈ items.take n, x.isMarker = false :=
        fun x hx => hitems x (List.mem_of_mem_take hx)
      have hplain := Size.plainRun_of_value (by simp; omega) htake hvalue
      obtain ⟨hext, hallows⟩ := hone hplain hb hfits
      rw [Size.length_run_of_value htake hvalue, List.length_take, Nat.min_eq_left hle] at hallows
      obtain ⟨k, hk, hleast, hmost⟩ := ih (hext.trans hb)
        (fun x hx => hitems x (List.mem_of_mem_drop hx)) (by simp; omega) hlt
      rw [List.length_drop] at hleast hmost
      exact ⟨k + 1, by omega, hallows.succ_mul hle ⟨hleast, hmost⟩⟩

mutual

/-- The number of terms that a pattern may match lies within its size under any earlier bindings. -/
theorem allows_of_fits : ∀ (p : Pattern) {t : Term} {b b' : Bindings}, t.PlainRun →
    b.Extends b₀ → p.Fits w t b b' → (p.size none b₀).Allows t.run.length
  | atom _, t, b, b', _, _, h | literal _, t, b, b', _, _, h | blank _, t, b, b', _, _, h =>
      Size.allows_one_of_any h.1
  | except _, t, b, b', _, _, h => by
      obtain ⟨x, hx⟩ := Option.isSome_iff_exists.mp h.2.1
      exact Size.allows_one hx
  | call _ _ _, t, b, b', _, _, h => by
      obtain ⟨x, hx, -⟩ := h
      exact Size.allows_one hx
  | blankSequence _, t, b, b', ht, _, h => ⟨List.length_pos_iff.mpr h.1, ht.fits⟩
  | blankNullSequence _, t, _, _, ht, _, _ => ⟨Nat.zero_le _, ht.fits⟩
  | named x p, t, b, b', ht, hb, h => by
      rw [Fits] at h
      rw [size]
      cases hx₀ : b₀.get? x with
      | some v =>
          -- the name was bound to what it is bound to now, so the lengths agree
          simp only [hb x v hx₀] at h
          have hlen : v.boundLength none = t.run.length := by
            rw [Term.boundLength_none]
            exact Term.length_run_congr ((Term.beq_iff_strip v t).mp h.1)
          simp only [hlen]
          exact ⟨Nat.le_refl _, Nat.le_refl _⟩
      | none =>
          cases hx : b.get? x with
          | some v =>
              simp only [hx] at h
              exact allows_of_fits p ht hb h.2
          | none =>
              simp only [hx] at h
              exact allows_of_fits p ht ((Bindings.grown_push hx t).extends.trans hb) h
  | condition p _, t, b, b', ht, hb, h | tested p _, t, b, b', ht, hb, h =>
      allows_of_fits p ht hb h.1
  | hold p, t, b, b', ht, hb, h => allows_of_fits p ht hb h
  | longest p, t, b, b', ht, hb, h | shortest p, t, b, b', ht, hb, h => by
      rw [Fits] at h
      exact allows_of_fits p ht hb h
  | exceptThen no p, t, b, b', ht, hb, h => allows_of_fits p ht hb h.2
  | optional p d, t, b, b', ht, hb, h => by
      rw [size]
      refine ⟨Nat.zero_le _, ?_⟩
      by_cases hempty : (t.isMarker && t.args.isEmpty) = true
      · rw [Term.run_eq_nil_iff.mpr hempty]
        exact Nat.zero_le _
      · have hp : p.Fits w t b b' := by
          cases d <;> rw [Fits, if_neg hempty] at h <;> exact h
        exact (allows_of_fits p ht hb hp).2
  | alternatives ps, t, b, b', ht, hb, h => by
      obtain ⟨s, hs, hallows⟩ := allows_of_fitsAny ps ht hb h
      exact allows_alternatives hs hallows
  | repeated p _ least most, t, b, b', ht, hb, h => by
      have hone : ∀ {t b b'}, t.PlainRun → b.Extends b₀ → p.Fits w t b b' →
          b'.Extends b ∧ (p.size none b₀).Allows t.run.length :=
        fun ht hb h => ⟨extends_of_fits p h, allows_of_fits p ht hb h⟩
      obtain ⟨k, hk, hlen⟩ := length_of_repeats hone h hb ht.plain ht.fits (Nat.zero_le _)
      rw [size]
      exact Size.allows_repeated (by simpa using hk) hlen ht.fits
  | sequence ps, t, b, b', ht, hb, h => by
      rw [size, ← Nat.zero_add t.run.length]
      exact allows_of_fitsSlots ps ht.plain (by simpa using ht.fits) hb
        ⟨Nat.le_refl 0, Nat.le_refl 0⟩ h

theorem allows_of_fitsAny : ∀ (ps : List Pattern) {t : Term} {b b' : Bindings}, t.PlainRun →
    b.Extends b₀ → FitsAny w ps t b b' → ∃ s ∈ sizes none b₀ ps, s.Allows t.run.length
  | [], _, _, _, _, _, h => h.elim
  | p :: ps, t, b, b', ht, hb, h => by
      rw [sizes]
      obtain h | h := h
      · exact ⟨_, List.mem_cons_self, allows_of_fits p ht hb h⟩
      · obtain ⟨s, hs, hallows⟩ := allows_of_fitsAny ps ht hb h
        exact ⟨s, List.mem_cons_of_mem _ hs, hallows⟩

/-- Slots that may take all arguments, after patterns that took `m`. -/
theorem allows_of_fitsSlots : ∀ (ps : List Pattern) {args : List Term} {b b' : Bindings}
    {s : Size} {m : Nat}, (∀ x ∈ args, x.isMarker = false) → m + args.length ≤ unbounded →
    b.Extends b₀ → s.Allows m → FitsSlots w ps none args b b' →
    ((sizes none b₀ ps).foldl Size.andThen s).Allows (m + args.length)
  | [], args, b, b', s, m, _, _, _, hs, h => by
      rw [h.1]
      exact hs
  | p :: ps, args, b, b', s, m, hargs, hlen, hb, hs, h => by
      obtain ⟨n, hn, value, b₁, hvalue, hfits, hrest⟩ := h
      have hle := (Size.mem_counts.mp hn).2.2
      have htake : ∀ x ∈ args.take n, x.isMarker = false :=
        fun x hx => hargs x (List.mem_of_mem_take hx)
      have hallows := allows_of_fits p (Size.plainRun_of_value (by simp; omega) htake hvalue)
        hb hfits
      rw [Size.length_run_of_value htake hvalue, List.length_take, Nat.min_eq_left hle] at hallows
      have hrec := allows_of_fitsSlots ps (fun x hx => hargs x (List.mem_of_mem_drop hx))
        (by rw [List.length_drop]; omega) ((extends_of_fits p hfits).trans hb)
        (hs.andThen hallows (by omega)) hrest
      rw [sizes, List.foldl_cons]
      rwa [List.length_drop, Nat.add_assoc, Nat.add_sub_cancel' hle] at hrec

end

/-- Slots that may take all arguments in any order, after patterns that took `m`. -/
theorem allows_of_fitsAnywhere : ∀ (ps : List Pattern) {args : List Term} {b b' : Bindings}
    {s : Size} {m : Nat}, (∀ x ∈ args, x.isMarker = false) → m + args.length ≤ unbounded →
    b.Extends b₀ → s.Allows m → FitsAnywhere w ps none args b b' →
    ((sizes none b₀ ps).foldl Size.andThen s).Allows (m + args.length)
  | [], args, b, b', s, m, _, _, _, hs, h => by
      rw [h.1]
      exact hs
  | p :: ps, args, b, b', s, m, hargs, hlen, hb, hs, h => by
      obtain ⟨n, -, taken, left, hchoice, value, b₁, hvalue, hfits, hrest⟩ := h
      obtain ⟨rfl, hperm⟩ := mem_choices hchoice
      have hsum : taken.length + left.length = args.length := by
        rw [← List.length_append, hperm.length_eq]
      have htaken : ∀ x ∈ taken, x.isMarker = false :=
        fun x hx => hargs x (hperm.subset (List.mem_append_left _ hx))
      have hallows := allows_of_fits p (Size.plainRun_of_value (by omega) htaken hvalue) hb hfits
      rw [Size.length_run_of_value htaken hvalue] at hallows
      have hrec := allows_of_fitsAnywhere ps
        (fun x hx => hargs x (hperm.subset (List.mem_append_right _ hx))) (by dsimp only; omega)
        ((extends_of_fits p hfits).trans hb) (hs.andThen hallows (by omega)) hrest
      rw [sizes, List.foldl_cons, ← hsum, ← Nat.add_assoc]
      exact hrec

/-! ## the slots of a call -/

/-- Whether so many arguments are within what slots take together. -/
def InRange (ps : List Pattern) (b : Bindings) (n : Nat) : Prop :=
  (totalRange ps b).1 ≤ n ∧ n ≤ (totalRange ps b).2

section InRange

variable {ps : List Pattern} {args : List Term} {b b' : Bindings}

/-- Slots that may take all arguments take a number of them within the total range. -/
theorem inRange_of_fitsSlots (hargs : ∀ x ∈ args, x.isMarker = false)
    (hlen : args.length ≤ unbounded) (h : FitsSlots w ps none args b b') :
    InRange ps b args.length := by
  have hallows := allows_of_fitsSlots ps (s := .between 0 0) hargs (by simpa using hlen)
    (.refl b) ⟨Nat.le_refl 0, Nat.le_refl 0⟩ h
  rwa [Nat.zero_add] at hallows

theorem inRange_of_fitsAnywhere (hargs : ∀ x ∈ args, x.isMarker = false)
    (hlen : args.length ≤ unbounded) (h : FitsAnywhere w ps none args b b') :
    InRange ps b args.length := by
  have hallows := allows_of_fitsAnywhere ps (s := .between 0 0) hargs (by simpa using hlen)
    (.refl b) ⟨Nat.le_refl 0, Nat.le_refl 0⟩ h
  rwa [Nat.zero_add] at hallows

end InRange

/-! ## with and without the comparison -/

section Fill

variable {m : Type → Type} [Monad m]

/-- Fill the slots of a call with all arguments of a subject, whose head `f` has the attributes
`its`. -/
def fill {ρ : Type} (env : Surroundings m) (its : Attributes) (f : Term) (ps : List Pattern)
    (xs : List Term) (b : Bindings) (k : Bindings → m (Option ρ)) : m (Option ρ) :=
  let flat := if its.has .flat then some f else none
  if its.has .orderless then
    searchAnywhere env ps ρ flat f ps.length 1 xs.zipIdx b
      fun b free => guardM free.isEmpty (k b)
  else
    searchSlots env ps ρ flat f ps.length 1 xs b
      fun b rest => guardM rest.isEmpty (k b)

/-- Fill the slots of a call; unless its head is flat, only with a number of arguments that is in
range. -/
def fillWithin {ρ : Type} (env : Surroundings m) (its : Attributes) (f : Term) (ps : List Pattern)
    (xs : List Term) (b : Bindings) (k : Bindings → m (Option ρ)) : m (Option ρ) :=
  if !its.has .flat && (xs.length < (totalRange ps b).1 || (totalRange ps b).2 < xs.length) then
    pure none
  else fill env its f ps xs b k

/-- Once its head has matched, the search for a call compares the number of arguments with the range
of the slots and then fills them. -/
theorem search_call (env : Surroundings m) (whole : Term) (head : Pattern) (ps : List Pattern)
    (ρ : Type) (t : Term) (b : Bindings) (k : Bindings → m (Option ρ)) :
    (call whole head ps).search env ρ t b k = (do
      env.tick
      match t.single? with
      | none => pure none
      | some subject =>
        if whole.isLiteral (← env.attributes) then guardM (whole == subject) (k b)
        else
          match subject with
          | .node _ f xs =>
            head.search env ρ f b fun b => do
              fillWithin env (subject.headAttributes (← env.attributes)) f ps xs b k
          | _ => pure none) := by
  rw [search]
  rfl

variable {env : Surroundings m} {o : Observation m} {its : Attributes} {f : Term}
  {ps : List Pattern} {xs : List Term} {b : Bindings} {ρ : Type} {k : Bindings → m (Option ρ)}

/-- In range, the comparison makes no difference. -/
theorem fillWithin_of_inRange (h : InRange ps b xs.length) :
    fillWithin env its f ps xs b k = fill env its f ps xs b k := by
  refine if_neg ?_
  rw [Bool.and_eq_true, Bool.or_eq_true, decide_eq_true_eq, decide_eq_true_eq]
  rintro ⟨-, hless | hmore⟩
  · exact Nat.not_lt.mpr h.1 hless
  · exact Nat.not_lt.mpr h.2 hmore

/-- Out of range, nothing is tried. -/
theorem fillWithin_of_not_inRange (hflat : its.has .flat = false) (h : ¬ InRange ps b xs.length) :
    fillWithin env its f ps xs b k = pure none := by
  refine if_pos ?_
  rw [hflat, Bool.not_false, Bool.true_and, Bool.or_eq_true, decide_eq_true_eq, decide_eq_true_eq]
  rw [InRange] at h
  omega

/-- Slots that are filled with all arguments, none of them a run, have a range that their number is
in. -/
theorem yields_fill (hw : env.Meets o w) (hflat : its.has .flat = false)
    (hxs : ∀ x ∈ xs, x.isMarker = false) (hlen : xs.length ≤ unbounded)
    (hk : ∀ b', o.Gives (k b') fun _ => True) :
    o.Yields (fill env its f ps xs b k) fun _ => InRange ps b xs.length := by
  have hyields : ∀ {b'}, InRange ps b xs.length →
      o.Yields (k b') fun _ => InRange ps b xs.length :=
    fun h => o.gives_mono (hk _) fun _ _ _ _ => h
  simp only [fill, hflat, Bool.false_eq_true, if_false]
  split
  · refine sound_searchAnywhere hw ps fun b' used left hused hfits =>
      Observation.yields_guard fun h => ?_
    rw [List.isEmpty_iff] at h
    subst h
    rw [eq_of_mem_choices_nil hused, List.zipIdx_map_fst] at hfits
    exact hyields (inRange_of_fitsAnywhere hxs hlen hfits)
  · refine sound_searchSlots hw ps fun b' used rest hsplit hfits =>
      Observation.yields_guard fun h => ?_
    rw [List.isEmpty_iff] at h
    rw [h, List.append_nil] at hsplit
    subst hsplit
    exact hyields (inRange_of_fitsSlots hxs hlen hfits)

end Fill

end Pattern

end Termwise
