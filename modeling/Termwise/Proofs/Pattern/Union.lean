import Mathlib.Data.List.Forall2
import Termwise.Proofs.Pattern.Shortcuts

/-!
# Termwise.Proofs.Pattern.Union

`Alternatives` in a slot is a union: a call with `Alternatives(p, q)` among its arguments has the
solutions it has with `p` there and those it has with `q` (`mem_solutions_call_alternatives`), where
neither binds a name.

The size of the slot is merged over `p` and `q` before one of them is tried, and its value is made
for both.  That loses nothing, for

* what a pattern without names matches depends on nothing but the run of terms
  (`solutions_congr_run`);
* a pattern takes only numbers of terms within its own size (`allows_of_mem_slot`);
* the value stands for the same run, unless one of `p` and `q` takes runs of arguments as calls of a
  flat head, and the other takes them as they are (`Pattern.regroups`).
-/

namespace Termwise

/-! ## terms that stand for the same run -/

theorem Term.single?_congr_run {t t' : Term} (h : t.run = t'.run) : t.single? = t'.single? := by
  ext x
  rw [single?_eq_some_iff, single?_eq_some_iff, h]

namespace Pattern

variable {w : World} {p q : Pattern}

mutual

/-- What a pattern without names matches depends on the run that a term stands for. -/
theorem solutions_congr_run : ∀ (p : Pattern), p.names = [] → ∀ {t t' : Term}, t.run = t'.run →
    ∀ b : Bindings, p.solutions w t b = p.solutions w t' b
  | atom _, _, t, t', h, b | literal _, _, t, t', h, b | blank _, _, t, t', h, b => by
      rw [solutions, solutions, Term.single?_congr_run h]
  | blankSequence _, _, t, t', h, b | blankNullSequence _, _, t, t', h, b
  | repeated _ _ _ _, _, t, t', h, b | sequence _, _, t, t', h, b => by
      rw [solutions, solutions, h]
  | named x p, hp, _, _, _, _ => absurd hp (List.cons_ne_nil x p.names)
  | condition p _, hp, t, t', h, b | hold p, hp, t, t', h, b | longest p, hp, t, t', h, b
  | shortest p, hp, t, t', h, b => by
      rw [solutions, solutions, solutions_congr_run p hp h]
  | tested p _, hp, t, t', h, b => by
      rw [solutions, solutions, solutions_congr_run p hp h, h]
  | alternatives ps, hp, t, t', h, b => by
      rw [solutions, solutions, solutionsOfAny_congr_run ps hp h]
  | optional p d, hp, t, t', h, b => by
      have hempty : (t.isMarker && t.args.isEmpty) = (t'.isMarker && t'.args.isEmpty) := by
        rw [Bool.eq_iff_iff, ← Term.run_eq_nil_iff, ← Term.run_eq_nil_iff, h]
      cases d <;> rw [solutions, solutions, hempty, solutions_congr_run p hp h]
  | except no, hp, t, t', h, b => by
      rw [solutions, solutions, solutions_congr_run no hp h, Term.single?_congr_run h]
  | exceptThen no p, hp, t, t', h, b => by
      obtain ⟨hno, hp⟩ := List.append_eq_nil_iff.mp hp
      rw [solutions, solutions, solutions_congr_run no hno h, solutions_congr_run p hp h]
  | call _ _ _, _, t, t', h, b => by
      rw [solutions, solutions, Term.single?_congr_run h]

theorem solutionsOfAny_congr_run : ∀ (ps : List Pattern), namesOfAll ps = [] →
    ∀ {t t' : Term}, t.run = t'.run → ∀ b : Bindings,
      solutionsOfAny w ps t b = solutionsOfAny w ps t' b
  | [], _, _, _, _, _ => rfl
  | p :: ps, hps, t, t', h, b => by
      obtain ⟨hp, hps⟩ := List.append_eq_nil_iff.mp hps
      rw [solutionsOfAny, solutionsOfAny, solutions_congr_run p hp h,
        solutionsOfAny_congr_run ps hps h]

end

end Pattern

/-! ## sizes in flat calls -/

namespace Size

variable {s t s' t' : Size}

theorem regroups_foldl_join (ss : List Size) (s : Size) :
    (ss.foldl join s).regroups = (s.regroups && ss.all regroups) := by
  induction ss generalizing s with
  | nil => rw [List.foldl_nil, List.all_nil, Bool.and_true]
  | cons s' ss ih =>
      rw [List.foldl_cons, ih, List.all_cons, ← Bool.and_assoc]
      rfl

/-- Sequences take runs as they are. -/
theorem regroups_foldl_andThen (ss : List Size) (s : Size) :
    (ss.foldl andThen s).regroups = s.regroups := by
  induction ss generalizing s with
  | nil => rfl
  | cons s' ss ih => exact (ih _).trans rfl

/-- The second size is the first one inside a flat call: it has the same least number, and a
greatest number that is no smaller, the greatest of all where runs are wrapped. -/
structure Widens (s t : Size) : Prop where
  least : t.least = s.least
  most : s.most ≤ t.most
  regroups : t.regroups = true → Pattern.unbounded ≤ t.most

theorem Widens.refl (h : s.regroups = false) : s.Widens s :=
  ⟨rfl, Nat.le_refl _, fun h' => absurd (h.symm.trans h') Bool.false_ne_true⟩

theorem Widens.join (h : s.Widens t) (h' : s'.Widens t') : (s.join s').Widens (t.join t') where
  least := congrArg₂ min h.least h'.least
  most := Nat.max_le.mpr
    ⟨Nat.le_trans h.most (Nat.le_max_left _ _), Nat.le_trans h'.most (Nat.le_max_right _ _)⟩
  regroups hr := Nat.le_trans (h.regroups (Bool.and_eq_true_iff.mp hr).1) (Nat.le_max_left _ _)

theorem widens_inFlat (s : Size) (f : Term) (shortest : Bool) (h : s.most ≤ Pattern.unbounded) :
    (s.inFlat none shortest).Widens (s.inFlat (some f) shortest) :=
  ⟨rfl, h, fun _ => Nat.le_refl _⟩

theorem Widens.allows {n : Nat} (h : s.Widens t) (hn : s.Allows n) : t.Allows n :=
  ⟨h.least ▸ hn.1, Nat.le_trans hn.2 h.most⟩

end Size

namespace Pattern

variable {w : World} {p q : Pattern} {b : Bindings}

mutual

/-- Whether a pattern takes runs of arguments of a flat call as calls of the same head. -/
def regroups : Pattern → Bool
  | blank _ | blankSequence _ | blankNullSequence _ => true
  | named _ p | condition p _ | tested p _ | hold p | longest p | shortest p | optional p _
  | exceptThen _ p => p.regroups
  | alternatives ps => !ps.isEmpty && regroupAll ps
  | repeated _ _ _ _ | sequence _ | except _ | literal _ | call _ _ _ | atom _ => false

/-- Whether several patterns do. -/
def regroupAll : List Pattern → Bool
  | [] => true
  | p :: ps => p.regroups && regroupAll ps

end

mutual

theorem regroups_size (f : Term) : ∀ p : Pattern, (p.size (some f) b).regroups = p.regroups
  | blank _ | blankSequence _ | blankNullSequence _ => rfl
  | named x p => by
      rw [size, regroups, ← regroups_size f p]
      split <;> rfl
  | condition p _ | tested p _ | hold p | longest p | shortest p | optional p _
  | exceptThen _ p => by
      rw [size, regroups, ← regroups_size f p]
  | alternatives [] => rfl
  | alternatives (p :: ps) => by
      rw [size, sizes, regroups, regroupAll, Size.regroups_foldl_join, regroups_size f p,
        all_regroups_sizes f ps]
      rfl
  | sequence ps => by
      rw [size, regroups, Size.regroups_foldl_andThen]
      rfl
  | repeated _ _ _ _ | except _ | literal _ | call _ _ _ | atom _ => rfl

theorem all_regroups_sizes (f : Term) : ∀ ps : List Pattern,
    (sizes (some f) b ps).all Size.regroups = regroupAll ps
  | [] => rfl
  | p :: ps => by
      rw [sizes, List.all_cons, regroups_size f p, all_regroups_sizes f ps, regroupAll]

end

mutual

/-- Without names, the size in a flat call is the size elsewhere, widened. -/
theorem widens_size (f : Term) : ∀ p : Pattern, p.names = [] →
    (p.size none b).Widens (p.size (some f) b)
  | blank _, _ | blankSequence _, _ | blankNullSequence _, _ =>
      Size.widens_inFlat _ f _ (by decide)
  | named x p, hp => absurd hp (List.cons_ne_nil x p.names)
  | condition p _, hp | tested p _, hp | hold p, hp => by
      rw [size, size]
      exact widens_size f p hp
  | longest p, hp | shortest p, hp => by
      have h := widens_size f p hp
      rw [size, size]
      exact ⟨h.least, h.most, h.regroups⟩
  | optional p _, hp => by
      have h := widens_size f p hp
      rw [size, size]
      exact ⟨rfl, h.most, h.regroups⟩
  | exceptThen no p, hp => by
      rw [size, size]
      exact widens_size f p (List.append_eq_nil_iff.mp hp).2
  | alternatives [], _ => .refl rfl
  | alternatives (p :: ps), hp => by
      obtain ⟨hp, hps⟩ := List.append_eq_nil_iff.mp hp
      rw [size, size, sizes, sizes]
      exact List.rel_foldl (fun _ _ h _ _ h' => h.join h') (widens_size f p hp)
        (widens_sizes f ps hps)
  | sequence ps, _ => by
      rw [size, size]
      exact .refl (Size.regroups_foldl_andThen _ _)
  | repeated _ _ _ _, _ | except _, _ | literal _, _ | call _ _ _, _ | atom _, _ => .refl rfl

theorem widens_sizes (f : Term) : ∀ ps : List Pattern, namesOfAll ps = [] →
    List.Forall₂ Size.Widens (sizes none b ps) (sizes (some f) b ps)
  | [], _ => .nil
  | p :: ps, hps => by
      obtain ⟨hp, hps⟩ := List.append_eq_nil_iff.mp hps
      exact .cons (widens_size f p hp) (widens_sizes f ps hps)

end

end Pattern

/-! ## values -/

namespace Size

variable {s t : Size} {flat : Option Term} {items : List Term}

theorem value_of_not_regroups (h : s.regroups = false) (flat : Option Term) (items : List Term) :
    s.value flat items = s.value none items := by
  unfold value
  cases flat with
  | none => rfl
  | some f => simp only [h, Bool.false_eq_true, if_false]

theorem run_value_singleton (s : Size) (flat : Option Term) {x : Term} (h : x.isMarker = false) :
    (s.value flat [x]).run = [x] := by
  unfold value
  dsimp only
  split
  · exact Term.run_of_not_isMarker h
  · rfl

/-- Two sizes make values of the same items that stand for the same run, unless one of them wraps
runs and the other one does not. -/
theorem run_value_congr (h : flat = none ∨ s.regroups = t.regroups)
    (hitems : ∀ x ∈ items, x.isMarker = false) :
    (s.value flat items).run = (t.value flat items).run := by
  obtain rfl | h := h
  · rw [run_value s hitems, run_value t hitems]
  · rcases items with _ | ⟨x, _ | ⟨y, zs⟩⟩
    · rfl
    · have hx := hitems x List.mem_cons_self
      rw [run_value_singleton s flat hx, run_value_singleton t flat hx]
    · unfold value
      rw [h]

/-- A value stands for no more terms than it was made from. -/
theorem length_run_value_le (s : Size) (flat : Option Term)
    (hitems : ∀ x ∈ items, x.isMarker = false)
    (hflat : ∀ f ∈ flat, (Term.call f items).isMarker = false) :
    (s.value flat items).run.length ≤ items.length := by
  cases hr : s.regroups with
  | false =>
      have hvalue : (s.value flat items).run = items := by
        rw [value_of_not_regroups hr, run_value s hitems]
      exact Nat.le_of_eq (congrArg List.length hvalue)
  | true =>
      rcases items with _ | ⟨x, _ | ⟨y, zs⟩⟩
      · exact Nat.le_refl 0
      · exact Nat.le_of_eq
          (congrArg List.length (run_value_singleton s flat (hitems x List.mem_cons_self)))
      · cases flat with
        | none => exact Nat.le_of_eq (congrArg List.length (run_value s hitems))
        | some f =>
            have hcall : s.value (some f) (x :: y :: zs) = .call f (x :: y :: zs) := by
              unfold value
              simp only [hr, if_true]
            rw [hcall, Term.run_of_not_isMarker (hflat f rfl)]
            exact Nat.succ_le_succ (Nat.zero_le _)

end Size

namespace Pattern

variable {w : World} {p q : Pattern} {flat : Option Term} {items : List Term} {b b' : Bindings}

/-! ## slots -/

/-- Some items fill a slot: the size of the pattern there allows so many, and the pattern matches
the value made of them. -/
def Fills (w : World) (p : Pattern) (flat : Option Term) (items : List Term) (b b' : Bindings) :
    Prop :=
  (p.size flat b).Allows items.length ∧
    b' ∈ p.solutions w ((p.size flat b).value flat items) b

theorem mem_fillings_cons_iff {ps : List Pattern} {args : List Term} {f : Bindings × List Term} :
    f ∈ fillings w (p :: ps) flat args b ↔ ∃ n ≤ args.length, ∃ b₁,
      Fills w p flat (args.take n) b b₁ ∧ f ∈ fillings w ps flat (args.drop n) b₁ := by
  rw [mem_fillings_cons]
  constructor
  · rintro ⟨n, hn, b₁, hb₁, hf⟩
    obtain ⟨hleast, hmost, hn⟩ := Size.mem_counts.mp hn
    have hlen : (args.take n).length = n := List.length_take_of_le hn
    exact ⟨n, hn, b₁, ⟨hlen.symm ▸ ⟨hleast, hmost⟩, hb₁⟩, hf⟩
  · rintro ⟨n, hn, b₁, ⟨hallows, hb₁⟩, hf⟩
    have hlen : (args.take n).length = n := List.length_take_of_le hn
    rw [hlen] at hallows
    exact ⟨n, Size.mem_counts.mpr ⟨hallows.1, hallows.2, hn⟩, b₁, hb₁, hf⟩

theorem mem_fillingsAnywhere_cons_iff {ps : List Pattern} {free : List (Term × Nat)}
    {f : Bindings × List (Term × Nat)} :
    f ∈ fillingsAnywhere w (p :: ps) flat free b ↔ ∃ n, ∃ c ∈ choices n free, ∃ b₁,
      Fills w p flat (c.1.map (·.1)) b b₁ ∧ f ∈ fillingsAnywhere w ps flat c.2 b₁ := by
  rw [mem_fillingsAnywhere_cons]
  constructor
  · rintro ⟨n, hn, c, hc, b₁, hb₁, hf⟩
    obtain ⟨hleast, hmost, -⟩ := Size.mem_counts.mp hn
    have hlen : (c.1.map (·.1)).length = n := List.length_map _ |>.trans (mem_choices hc).1
    exact ⟨n, c, hc, b₁, ⟨hlen.symm ▸ ⟨hleast, hmost⟩, hb₁⟩, hf⟩
  · rintro ⟨n, c, hc, b₁, ⟨hallows, hb₁⟩, hf⟩
    obtain ⟨hlen, hperm⟩ := mem_choices hc
    rw [List.length_map, hlen] at hallows
    have hn : n ≤ free.length := by
      rw [← hlen, ← hperm.length_eq, List.length_append]
      exact Nat.le_add_right _ _
    exact ⟨n, Size.mem_counts.mpr ⟨hallows.1, hallows.2, hn⟩, c, hc, b₁, hb₁, hf⟩

/-- A pattern without names that matches a value of some items takes so many of them, by its own
size. -/
theorem allows_of_mem_slot (hp : p.names = []) {s : Size}
    (hs : flat = none ∨ s.regroups = p.regroups) (hflat : OrdinaryHead flat)
    (hitems : ∀ x ∈ items, x.Ordinary) (hlen : items.length ≤ unbounded)
    (h : b' ∈ p.solutions w (s.value flat items) b) : (p.size flat b).Allows items.length := by
  have hmarkers : ∀ x ∈ items, x.isMarker = false := fun x hx => (hitems x hx).isMarker
  have hvalue : (s.value flat items).OrdinaryRun :=
    Size.ordinaryRun_value s hlen hitems fun f hf => hflat f hf hlen hitems
  have hallows : (p.size none b).Allows (s.value flat items).run.length :=
    allows_of_mem_solutions p hvalue (.refl b) h
  cases flat with
  | none => rwa [Size.run_value s hmarkers] at hallows
  | some f =>
      have hwidens : (p.size none b).Widens (p.size (some f) b) := widens_size f p hp
      have hs : s.regroups = p.regroups := hs.resolve_left (Option.some_ne_none f)
      cases hr : p.regroups with
      | false =>
          rw [Size.value_of_not_regroups (hs.trans hr), Size.run_value s hmarkers] at hallows
          exact hwidens.allows hallows
      | true =>
          -- a run that is wrapped counts as one term, and any number may be wrapped
          have hle := s.length_run_value_le (some f) hmarkers
            fun f hf => (hflat f hf hlen hitems).isMarker
          refine ⟨?_, Nat.le_trans hlen (hwidens.regroups ((regroups_size f p).trans hr))⟩
          rw [hwidens.least]
          exact Nat.le_trans hallows.1 hle

/-- Items fill the slot of a pattern without names when the pattern matches a value of them, made
by whatever size wraps runs where the pattern does. -/
theorem fills_iff (hp : p.names = []) {s : Size} (hs : flat = none ∨ s.regroups = p.regroups)
    (hflat : OrdinaryHead flat) (hitems : ∀ x ∈ items, x.Ordinary)
    (hlen : items.length ≤ unbounded) :
    Fills w p flat items b b' ↔ b' ∈ p.solutions w (s.value flat items) b := by
  have hrun : ((p.size flat b).value flat items).run = (s.value flat items).run := by
    refine Size.run_value_congr ?_ fun x hx => (hitems x hx).isMarker
    cases flat with
    | none => exact .inl rfl
    | some f => exact hs.imp_right fun h => (regroups_size f p).trans h.symm
  rw [Fills, solutions_congr_run p hp hrun]
  exact and_iff_right_of_imp (allows_of_mem_slot hp hs hflat hitems hlen)

theorem mem_solutions_alternatives_pair {t : Term} :
    b' ∈ (alternatives [p, q]).solutions w t b ↔
      b' ∈ p.solutions w t b ∨ b' ∈ q.solutions w t b := by
  rw [solutions, solutionsOfAny, solutionsOfAny, solutionsOfAny, List.append_nil, List.mem_append]

/-- Items fill the slot of two alternatives when they fill the slot of one of them. -/
theorem fills_alternatives (hp : p.names = []) (hq : q.names = [])
    (hregroups : flat = none ∨ p.regroups = q.regroups) (hflat : OrdinaryHead flat)
    (hitems : ∀ x ∈ items, x.Ordinary) (hlen : items.length ≤ unbounded) :
    Fills w (alternatives [p, q]) flat items b b' ↔
      Fills w p flat items b b' ∨ Fills w q flat items b b' := by
  have hpair : (alternatives [p, q]).size flat b = (p.size flat b).join (q.size flat b) := rfl
  have hjoin : flat = none ∨ ((p.size flat b).join (q.size flat b)).regroups = p.regroups := by
    cases flat with
    | none => exact .inl rfl
    | some f =>
        have hpq : p.regroups = q.regroups := hregroups.resolve_left (Option.some_ne_none f)
        right
        rw [Size.join, regroups_size f p, regroups_size f q, ← hpq, Bool.and_self]
  rw [Fills, hpair, mem_solutions_alternatives_pair, ← fills_iff hp hjoin hflat hitems hlen,
    ← fills_iff hq (hregroups.elim .inl fun h => hjoin.imp_right (·.trans h)) hflat hitems hlen]
  refine and_iff_right_of_imp fun h => ?_
  obtain h | h := h
  · exact h.1.join_left _
  · exact h.1.join_right _

section Slots

variable {before after : List Pattern}

/-- Two alternatives among slots leave over what one of them leaves. -/
theorem mem_fillings_alternatives (hp : p.names = []) (hq : q.names = [])
    (hregroups : flat = none ∨ p.regroups = q.regroups) (hflat : OrdinaryHead flat)
    {args : List Term} (hargs : ∀ x ∈ args, x.Ordinary) (hlen : args.length ≤ unbounded)
    {f : Bindings × List Term} :
    f ∈ fillings w (before ++ alternatives [p, q] :: after) flat args b ↔
      f ∈ fillings w (before ++ p :: after) flat args b ∨
        f ∈ fillings w (before ++ q :: after) flat args b := by
  induction before generalizing args b with
  | nil =>
      simp only [List.nil_append, mem_fillings_cons_iff]
      refine (exists_congr fun n => and_congr_right fun hn => exists_congr fun b₁ =>
        and_congr_left' (fills_alternatives hp hq hregroups hflat
          (fun x hx => hargs x (List.mem_of_mem_take hx))
          (Nat.le_trans (List.length_take_le' _ _) hlen))).trans ?_
      simp only [or_and_right, and_or_left, exists_or]
  | cons r before ih =>
      simp only [List.cons_append, mem_fillings_cons_iff]
      refine (exists_congr fun n => and_congr_right fun hn => exists_congr fun b₁ =>
        and_congr_right' (ih (fun x hx => hargs x (List.mem_of_mem_drop hx))
          (by rw [List.length_drop]; omega))).trans ?_
      simp only [and_or_left, exists_or]

theorem mem_fillingsAnywhere_alternatives (hp : p.names = []) (hq : q.names = [])
    (hregroups : flat = none ∨ p.regroups = q.regroups) (hflat : OrdinaryHead flat)
    {free : List (Term × Nat)} (hfree : ∀ x ∈ free, x.1.Ordinary) (hlen : free.length ≤ unbounded)
    {f : Bindings × List (Term × Nat)} :
    f ∈ fillingsAnywhere w (before ++ alternatives [p, q] :: after) flat free b ↔
      f ∈ fillingsAnywhere w (before ++ p :: after) flat free b ∨
        f ∈ fillingsAnywhere w (before ++ q :: after) flat free b := by
  induction before generalizing free b with
  | nil =>
      simp only [List.nil_append, mem_fillingsAnywhere_cons_iff]
      refine (exists_congr fun n => exists_congr fun c => and_congr_right fun hc =>
        have hchoice := ordinary_of_mem_choices hc hfree hlen
        exists_congr fun b₁ => and_congr_left' (fills_alternatives hp hq hregroups hflat
          hchoice.1.1 hchoice.1.2)).trans ?_
      simp only [or_and_right, and_or_left, exists_or]
  | cons r before ih =>
      simp only [List.cons_append, mem_fillingsAnywhere_cons_iff]
      refine (exists_congr fun n => exists_congr fun c => and_congr_right fun hc =>
        have hchoice := ordinary_of_mem_choices hc hfree hlen
        exists_congr fun b₁ => and_congr_right' (ih hchoice.2.1 hchoice.2.2)).trans ?_
      simp only [and_or_left, exists_or]

end Slots

/-! ## calls -/

/-- A call with two alternatives among its arguments has the solutions that it has with one or with
the other in their place; inside a flat call, if they both take runs wrapped in its head or both as
they are. -/
theorem mem_solutions_call_alternatives {either first second t : Term} {head : Pattern}
    {before after : List Pattern} (hp : p.names = []) (hq : q.names = [])
    (heither : ofTerm either = call either head (before ++ alternatives [p, q] :: after))
    (hfirst : ofTerm first = call first head (before ++ p :: after))
    (hsecond : ofTerm second = call second head (before ++ q :: after))
    (ht : t.OrdinaryRun)
    (hregroups : ∀ x, t.single? = some x → (x.headAttributes w.attributes).has .flat = true →
      p.regroups = q.regroups) :
    b' ∈ (ofTerm either).solutions w t b ↔
      b' ∈ (ofTerm first).solutions w t b ∨ b' ∈ (ofTerm second).solutions w t b := by
  rw [mem_solutions_ofTerm_call heither ht, mem_solutions_ofTerm_call hfirst ht,
    mem_solutions_ofTerm_call hsecond ht]
  simp only [← exists_or, ← and_or_left]
  refine exists_congr fun i => exists_congr fun f => exists_congr fun xs => exists_congr fun b₁ =>
    and_congr_right fun hx => and_congr_right fun _ => ?_
  have hord : (Term.node i f xs).Ordinary := ht.of_single? hx
  have hflat : OrdinaryHead
      (if ((Term.node i f xs).headAttributes w.attributes).has .flat then some f else none) :=
    ordinaryHead_of_ordinary hord _
  have hwrap : (if ((Term.node i f xs).headAttributes w.attributes).has .flat then some f
      else none) = none ∨ p.regroups = q.regroups := by
    cases hattr : ((Term.node i f xs).headAttributes w.attributes).has .flat with
    | false => exact .inl rfl
    | true => exact .inr (hregroups _ hx hattr)
  split
  · exact mem_fillingsAnywhere_alternatives hp hq hwrap hflat (mem_zipIdx_ordinary hord.args)
      (by simpa using hord.length_le)
  · exact mem_fillings_alternatives hp hq hwrap hflat hord.args hord.length_le

end Pattern

/-! ## calls with an argument left open -/

/-- A call with one argument left open. -/
structure Term.OpenCall where
  head : Term
  /-- The arguments before the open place. -/
  before : List Term
  /-- The arguments after it. -/
  after : List Term

namespace Term.OpenCall

/-- The call, with an argument put in. -/
def fill (C : OpenCall) (i : Nat) (t : Term) : Term := .node i C.head (C.before ++ t :: C.after)

end Term.OpenCall

namespace Pattern

variable {C : Term.OpenCall} {i : Nat} {t : Term}

/-- Whether a pattern is matched part by part against a call. -/
def isCall : Pattern → Bool
  | call _ _ _ => true
  | _ => false

theorem ofTerm_fill (h : (ofTerm (C.fill i t)).isCall = true) :
    ofTerm (C.fill i t) = call (C.fill i t) (ofTerm C.head)
      (C.before.map ofTerm ++ ofTerm t :: C.after.map ofTerm) := by
  cases hread : ofTerm (C.fill i t) with
  | call whole head args =>
      obtain ⟨hwhole, j, f, xs, hfill, rfl, rfl⟩ := eq_of_ofTerm_eq_call hread
      obtain ⟨-, rfl, rfl⟩ := Term.node.inj hfill
      rw [hwhole, List.map_append, List.map_cons]
  | _ =>
      rw [hread] at h
      cases h

/-- What holds all over a call with an argument put in holds all over the call with another one, if
it holds of calls and all over that argument. -/
theorem every_fill {r : Pattern → Prop} (hr : ∀ whole head args, r (call whole head args))
    {j : Nat} {t' : Term} (h : (ofTerm (C.fill i t)).isCall = true)
    (h' : (ofTerm (C.fill j t')).isCall = true) (hevery : (ofTerm (C.fill i t)).Every r)
    (ht : (ofTerm t).Every r → (ofTerm t').Every r) : (ofTerm (C.fill j t')).Every r := by
  rw [ofTerm_fill h] at hevery
  rw [ofTerm_fill h']
  obtain ⟨-, hhead, hargs⟩ := hevery
  rw [allEvery_iff, List.forall_mem_append, List.forall_mem_cons] at hargs
  refine ⟨hr _ _ _, hhead, allEvery_iff.mpr ?_⟩
  rw [List.forall_mem_append, List.forall_mem_cons]
  exact ⟨hargs.1, ht hargs.2.1, hargs.2.2⟩

end Pattern

end Termwise
