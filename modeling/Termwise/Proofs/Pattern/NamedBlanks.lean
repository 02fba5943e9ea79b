import Termwise.Proofs.Pattern.Language

/-!
# Termwise.Proofs.Pattern.NamedBlanks

Calls whose slots are named blanks, where one name may fill several slots.  The first
slot of a name binds it to the run that the slot takes; every further slot has to
take a run of the same length and compares what stands for the two runs:

```text
run            first slot             further slots
one argument   x_: the argument       the argument
               x__: a run of one      the argument
other runs     the run                the run
```

So equal runs agree in all cases but one: a sequence blank that took one argument is
bound to a run of one, which no argument equals.  The slots can be filled exactly
when the arguments can be cut into runs that fit and agree, and that case does not
arise (`exists_filling_iff_runs`).
-/

namespace Termwise

namespace Pattern

/-! ## blanks -/

/-- Whether a pattern is a blank, with or without a type. -/
def IsBlank : Pattern → Prop
  | blank _ | blankSequence _ | blankNullSequence _ => True
  | _ => False

/-- Whether a blank may take a number of arguments other than one. -/
def TakesRuns : Pattern → Prop
  | blankSequence _ | blankNullSequence _ => True
  | _ => False

variable {w : World} {p : Pattern} {b b' : Bindings}

theorem IsBlank.names (hp : p.IsBlank) : p.names = [] := by
  cases p <;> first | rfl | exact hp.elim

/-- A blank binds nothing and looks at the run alone. -/
theorem mem_solutions_blank (hp : p.IsBlank) {t : Term} :
    b' ∈ p.solutions w t b ↔ b' = b ∧ p.Accepts t.run := by
  cases p with
  | blank type =>
      simp only [solutions, Accepts, List.mem_ite_nil_right, any_single?_iff, List.mem_singleton]
      exact and_comm
  | blankSequence type =>
      simp only [solutions, Accepts, List.mem_ite_nil_right, List.mem_singleton, Bool.and_eq_true,
        Bool.not_eq_true', List.isEmpty_eq_false_iff, List.all_eq_true]
      exact and_comm
  | blankNullSequence type =>
      simp only [solutions, Accepts, List.mem_ite_nil_right, List.mem_singleton, List.all_eq_true]
      exact and_comm
  | _ => exact hp.elim

/-- What a blank accepts is within its size. -/
theorem allows_of_accepts (hp : p.IsBlank) {xs : List Term} (hxs : ∀ x ∈ xs, x.Ordinary)
    (hlen : xs.length ≤ unbounded) (h : p.Accepts xs) : (p.size none b).Allows xs.length := by
  have hmarker : (Term.marker xs).OrdinaryRun := ⟨hlen, hxs⟩
  have hb : b ∈ p.solutions ⟨fun _ => .none, fun _ => true, false⟩ (.marker xs) b :=
    (mem_solutions_blank hp).mpr ⟨rfl, h⟩
  exact allows_of_mem_solutions p hmarker (.refl b) hb

/-! ## names -/

/-- The first slot of a name binds it. -/
theorem mem_solutions_named_first (hp : p.IsBlank) {x : Symbol} {t : Term}
    (hx : b.get? x = none) :
    b' ∈ (named x p).solutions w t b ↔ b' = b.push x t ∧ p.Accepts t.run := by
  rw [solutions]
  simp only [hx]
  exact mem_solutions_blank hp

/-- A further slot of a name compares with what the name is bound to. -/
theorem mem_solutions_named_again (hp : p.IsBlank) {x : Symbol} {t v : Term}
    (hx : b.get? x = some v) :
    b' ∈ (named x p).solutions w t b ↔ (v == t) = true ∧ b' = b ∧ p.Accepts t.run := by
  rw [solutions]
  simp only [hx, List.mem_ite_nil_right, mem_solutions_blank hp]

theorem size_named_first {x : Symbol} (hx : b.get? x = none) :
    (named x p).size none b = p.size none b := by
  rw [size]
  simp only [hx]

theorem size_named_again {x : Symbol} {v : Term} (hx : b.get? x = some v) :
    (named x p).size none b =
      { p.size none b with least := v.run.length, most := v.run.length } := by
  rw [size]
  simp only [hx, Term.boundLength_none]

/-- What the first slot of a blank binds its name to, for a run that it takes. -/
def firstValue (p : Pattern) (run : List Term) : Term := (p.size none .empty).value none run

theorem size_blank (hp : p.IsBlank) (b : Bindings) : p.size none b = p.size none .empty :=
  size_of_fresh p none (by simp [hp.names, Bindings.Fresh])

theorem run_firstValue {run : List Term} (hrun : ∀ x ∈ run, x.Ordinary) :
    (p.firstValue run).run = run :=
  Size.run_value _ fun x hx => (hrun x hx).isMarker

theorem beq_marker (xs ys : List Term) : (Term.marker xs == Term.marker ys) = Term.equalAll xs ys :=
  rfl

/-- An argument does not equal a run. -/
theorem marker_beq_of_ordinary {x : Term} (hx : x.Ordinary) (xs : List Term) :
    (Term.marker xs == x) = false := by
  cases h : Term.marker xs == x with
  | false => rfl
  | true =>
      have hstrip := (Term.beq_iff_strip _ _).mp h
      have hm := hx.isMarker
      rw [← Term.isMarker_strip, ← hstrip, Term.isMarker_strip] at hm
      cases hm

/-- What a sequence blank binds its name to stands for a run even when it took one argument. -/
theorem firstValue_of_takesRuns (hp : p.TakesRuns) (run : List Term) :
    p.firstValue run = .marker run := by
  match p, hp, run with
  | blankSequence _, _, [] => rfl
  | blankSequence _, _, [_] => rfl
  | blankSequence _, _, _ :: _ :: _ => rfl
  | blankNullSequence _, _, [] => rfl
  | blankNullSequence _, _, [_] => rfl
  | blankNullSequence _, _, _ :: _ :: _ => rfl

/-- A slot that takes as many arguments as a run equals the run, unless it takes one. -/
theorem marker_beq_value {s : Size} {run items : List Term} (hmost : s.most = run.length)
    (hitems : ∀ x ∈ items, x.Ordinary) (hlen : items.length = run.length) :
    (Term.marker run == s.value none items) = true ↔
      Term.equalAll run items = true ∧ items.length ≠ 1 := by
  match items, hitems, hlen with
  | [], _, _ => simp [Size.value, beq_marker]
  | [y], hitems, hlen =>
      have hone : s.most = 1 := hmost.trans hlen.symm
      have hvalue : s.value none [y] = y := by simp [Size.value, hone]
      rw [hvalue, marker_beq_of_ordinary (hitems y List.mem_cons_self)]
      simp
  | y :: z :: rest, _, _ => simp [Size.value, beq_marker]

/-- What a name is bound to equals what stands for a later run exactly when the runs are equal, and
a sequence blank has not taken a run of one. -/
theorem firstValue_beq (hp : p.IsBlank) {run items : List Term} (hrun : p.Accepts run)
    (hitems : ∀ x ∈ items, x.Ordinary) (hlen : items.length = run.length) :
    (p.firstValue run ==
        Size.value { p.size none b with least := run.length, most := run.length } none items) =
      true ↔ Term.equalAll run items = true ∧ (p.TakesRuns → items.length ≠ 1) := by
  cases p with
  | blank type =>
      obtain ⟨a, rfl, -⟩ := hrun
      obtain ⟨y, rfl⟩ := List.length_eq_one_iff.mp hlen
      change (a == y) = true ↔ _
      simp [Term.equalAll, Term.beq_def, TakesRuns]
  | blankSequence type =>
      rw [firstValue_of_takesRuns (p := blankSequence type) trivial,
        marker_beq_value rfl hitems hlen]
      simp [TakesRuns]
  | blankNullSequence type =>
      rw [firstValue_of_takesRuns (p := blankNullSequence type) trivial,
        marker_beq_value rfl hitems hlen]
      simp [TakesRuns]
  | _ => exact hp.elim

/-! ## cuts -/

/-- A cut of arguments into one run for each slot, named `names` in order: every run fits the blank
of its name, and the runs of one name are equal. -/
structure IsCut (blankOf : Symbol → Pattern) (names : List Symbol) (args : List Term)
    (runs : List (List Term)) : Prop where
  whole : runs.flatten = args
  fits : List.Forall₂ (fun x run => (blankOf x).Accepts run) names runs
  agree : (names.zip runs).Pairwise fun s t => s.1 = t.1 → Term.equalAll s.2 t.2 = true

/-- Whether no sequence blank whose name comes again takes a run of one. -/
def KeepsRuns (blankOf : Symbol → Pattern) (names : List Symbol) (runs : List (List Term)) : Prop :=
  (names.zip runs).Pairwise fun s t => s.1 = t.1 → (blankOf s.1).TakesRuns → t.2.length ≠ 1

/-- Whether a further slot of a name may take a run, when the name is bound to `v`. -/
def Agrees (blankOf : Symbol → Pattern) (x : Symbol) (v : Term) (run : List Term) : Prop :=
  Term.equalAll v.run run = true ∧ ((blankOf x).TakesRuns → run.length ≠ 1)

/-- Whether every name is bound to what its first slot took. -/
def BoundFirst (blankOf : Symbol → Pattern) (b : Bindings) : Prop :=
  ∀ x v, b.get? x = some v → ∃ run, v = (blankOf x).firstValue run ∧ (∀ y ∈ run, y.Ordinary) ∧
    (blankOf x).Accepts run

/-- The bindings after a slot of a name: it is bound unless it is bound already. -/
def afterSlot (b : Bindings) (x : Symbol) (v : Term) : Bindings :=
  if (b.get? x).isSome then b else b.push x v

theorem get?_afterSlot (b : Bindings) (x y : Symbol) (v : Term) :
    (afterSlot b x v).get? y = (b.get? y).or (if x = y then some v else none) := by
  unfold afterSlot
  cases hx : b.get? x with
  | none => exact Bindings.get?_push b x y v
  | some u =>
      by_cases hxy : x = y
      · subst hxy
        simp [hx]
      · simp [hxy]

section Cuts

variable {blankOf : Symbol → Pattern}

theorem BoundFirst.afterSlot (h : BoundFirst blankOf b) {x : Symbol} {run : List Term}
    (hrun : ∀ y ∈ run, y.Ordinary) (haccepts : (blankOf x).Accepts run) :
    BoundFirst blankOf (afterSlot b x ((blankOf x).firstValue run)) := by
  intro y v hv
  rw [get?_afterSlot, Option.or_eq_some_iff] at hv
  obtain hv | ⟨-, hv⟩ := hv
  · exact h y v hv
  · split at hv
    · next hxy =>
        subst hxy
        cases hv
        exact ⟨run, rfl, hrun, haccepts⟩
    · cases hv

/-- What the first slot of a name may take, and what it binds. -/
theorem mem_first_slot_iff {x : Symbol} (hp : (blankOf x).IsBlank) (hx : b.get? x = none)
    {args : List Term} (hargs : ∀ y ∈ args, y.Ordinary) (hlen : args.length ≤ unbounded) (n : Nat)
    (b₁ : Bindings) :
    (n ∈ ((named x (blankOf x)).size none b).counts args.length ∧
        b₁ ∈ (named x (blankOf x)).solutions w
          (((named x (blankOf x)).size none b).value none (args.take n)) b) ↔
      n ≤ args.length ∧ (blankOf x).Accepts (args.take n) ∧
        b₁ = afterSlot b x ((blankOf x).firstValue (args.take n)) := by
  have htake : ∀ y ∈ args.take n, y.Ordinary := fun y hy => hargs y (List.mem_of_mem_take hy)
  have hrun : ∀ s : Size, (s.value none (args.take n)).run = args.take n := fun s =>
    Size.run_value s fun y hy => (htake y hy).isMarker
  have hafter : afterSlot b x ((blankOf x).firstValue (args.take n)) =
      b.push x ((blankOf x).firstValue (args.take n)) := by
    simp [afterSlot, hx]
  rw [Size.mem_counts, size_named_first hx, mem_solutions_named_first hp hx, hrun, size_blank hp,
    hafter]
  constructor
  · rintro ⟨⟨-, -, hle⟩, hb₁, haccepts⟩
    exact ⟨hle, haccepts, hb₁⟩
  · rintro ⟨hle, haccepts, hb₁⟩
    have hallows := allows_of_accepts (b := .empty) hp htake
      (Nat.le_trans (List.length_take_le' _ _) hlen) haccepts
    rw [List.length_take, Nat.min_eq_left hle] at hallows
    exact ⟨⟨hallows.1, hallows.2, hle⟩, hb₁, haccepts⟩

/-- What a further slot of a name may take: as many arguments as the first one, and equal ones. -/
theorem mem_further_slot_iff {x : Symbol} (hp : (blankOf x).IsBlank) {run : List Term}
    (hx : b.get? x = some ((blankOf x).firstValue run)) (hordinary : ∀ y ∈ run, y.Ordinary)
    (haccepts : (blankOf x).Accepts run) {args : List Term} (hargs : ∀ y ∈ args, y.Ordinary)
    (n : Nat) (b₁ : Bindings) :
    (n ∈ ((named x (blankOf x)).size none b).counts args.length ∧
        b₁ ∈ (named x (blankOf x)).solutions w
          (((named x (blankOf x)).size none b).value none (args.take n)) b) ↔
      n ≤ args.length ∧ (blankOf x).Accepts (args.take n) ∧
        Agrees blankOf x ((blankOf x).firstValue run) (args.take n) ∧ b₁ = b := by
  have htake : ∀ y ∈ args.take n, y.Ordinary := fun y hy => hargs y (List.mem_of_mem_take hy)
  have hrun : ∀ s : Size, (s.value none (args.take n)).run = args.take n := fun s =>
    Size.run_value s fun y hy => (htake y hy).isMarker
  have hequal : n ≤ args.length → n = run.length →
      (((blankOf x).firstValue run == Size.value
          { (blankOf x).size none b with least := run.length, most := run.length } none
          (args.take n)) = true ↔ Agrees blankOf x ((blankOf x).firstValue run) (args.take n)) := by
    intro hle hn
    rw [firstValue_beq hp haccepts htake (by simp [hn ▸ hle, hn]), Agrees,
      run_firstValue hordinary]
  rw [Size.mem_counts, size_named_again hx, mem_solutions_named_again hp hx, hrun,
    run_firstValue hordinary]
  constructor
  · rintro ⟨⟨hleast, hmost, hle⟩, heq, hb₁, htaken⟩
    exact ⟨hle, htaken, (hequal hle (Nat.le_antisymm hmost hleast)).mp heq, hb₁⟩
  · rintro ⟨hle, htaken, hag, hb₁⟩
    have hn : n = run.length := by
      have hstrip := (Term.equalAll_iff_stripAll _ _).mp hag.1
      rw [run_firstValue hordinary, Term.stripAll_eq_map, Term.stripAll_eq_map] at hstrip
      have hlength := congrArg List.length hstrip
      rw [List.length_map, List.length_map, List.length_take, Nat.min_eq_left hle] at hlength
      exact hlength.symm
    exact ⟨⟨Nat.le_of_eq hn.symm, Nat.le_of_eq hn, hle⟩, (hequal hle hn).mpr hag, hb₁, htaken⟩

/-- What one slot may take, and what it binds. -/
theorem mem_slot_iff (hblank : ∀ x, (blankOf x).IsBlank) (hb : BoundFirst blankOf b) (x : Symbol)
    {args : List Term} (hargs : ∀ y ∈ args, y.Ordinary) (hlen : args.length ≤ unbounded) (n : Nat)
    (b₁ : Bindings) :
    (n ∈ ((named x (blankOf x)).size none b).counts args.length ∧
        b₁ ∈ (named x (blankOf x)).solutions w
          (((named x (blankOf x)).size none b).value none (args.take n)) b) ↔
      n ≤ args.length ∧ (blankOf x).Accepts (args.take n) ∧
        (∀ v, b.get? x = some v → Agrees blankOf x v (args.take n)) ∧
        b₁ = afterSlot b x ((blankOf x).firstValue (args.take n)) := by
  cases hx : b.get? x with
  | none =>
      rw [mem_first_slot_iff (hblank x) hx hargs hlen]
      simp
  | some v =>
      obtain ⟨run, rfl, hordinary, haccepts⟩ := hb x v hx
      have hafter : afterSlot b x ((blankOf x).firstValue (args.take n)) = b := by
        simp [afterSlot, hx]
      rw [mem_further_slot_iff (hblank x) hx hordinary haccepts hargs, hafter]
      simp

/-- After a slot that agrees with what is bound before, later slots agree with what is bound then
exactly if they agree with what was bound before and, where they have the same name, with it. -/
theorem agrees_afterSlot_iff {x y : Symbol} {run items : List Term}
    (hrun : ∀ z ∈ run, z.Ordinary) (hx : ∀ v, b.get? x = some v → Agrees blankOf x v run) :
    (∀ v, (afterSlot b x ((blankOf x).firstValue run)).get? y = some v →
        Agrees blankOf y v items) ↔
      (∀ v, b.get? y = some v → Agrees blankOf y v items) ∧
        (x = y → Term.equalAll run items = true ∧ ((blankOf x).TakesRuns → items.length ≠ 1)) := by
  constructor
  · refine fun h => ⟨fun v hv => h v ?_, ?_⟩
    · rw [get?_afterSlot, hv]
      rfl
    · rintro rfl
      cases hv : b.get? x with
      | none =>
          have hnew := h ((blankOf x).firstValue run) (by simp [get?_afterSlot, hv])
          rwa [Agrees, run_firstValue hrun] at hnew
      | some v =>
          have hold := h v (by simp [get?_afterSlot, hv])
          have hfirst := (Term.equalAll_iff_stripAll _ _).mp (hx v hv).1
          have hlater := (Term.equalAll_iff_stripAll _ _).mp hold.1
          exact ⟨(Term.equalAll_iff_stripAll _ _).mpr (hfirst.symm.trans hlater), hold.2⟩
  · rintro ⟨hold, hnew⟩ v hv
    rw [get?_afterSlot, Option.or_eq_some_iff] at hv
    obtain hv | ⟨-, hv⟩ := hv
    · exact hold v hv
    · split at hv
      · next hxy =>
          subst hxy
          cases hv
          rw [Agrees, run_firstValue hrun]
          exact hnew rfl
      · cases hv

/-- Slots of named blanks can be filled exactly as the arguments can be cut into runs that fit,
agree with each other and with what is bound before. -/
theorem exists_filling_iff_runs (hblank : ∀ x, (blankOf x).IsBlank) : ∀ (names : List Symbol)
    {args : List Term} {b : Bindings}, BoundFirst blankOf b → (∀ y ∈ args, y.Ordinary) →
      args.length ≤ unbounded →
      ((∃ b', (b', []) ∈ fillings w (names.map fun x => named x (blankOf x)) none args b) ↔
        ∃ runs, IsCut blankOf names args runs ∧ KeepsRuns blankOf names runs ∧
          ∀ s ∈ names.zip runs, ∀ v, b.get? s.1 = some v → Agrees blankOf s.1 v s.2)
  | [], args, b, _, _, _ => by
      rw [List.map_nil, fillings]
      constructor
      · rintro ⟨b', hb'⟩
        obtain rfl : [] = args := (Prod.mk.inj (List.mem_singleton.mp hb')).2
        exact ⟨[], ⟨rfl, .nil, .nil⟩, .nil, by simp⟩
      · rintro ⟨runs, ⟨rfl, hfits, -⟩, -⟩
        cases hfits
        exact ⟨b, List.mem_singleton_self _⟩
  | x :: names, args, b, hb, hargs, hlen => by
      have htake : ∀ n, ∀ y ∈ args.take n, y.Ordinary :=
        fun n y hy => hargs y (List.mem_of_mem_take hy)
      have hrest := fun {n} (haccepts : (blankOf x).Accepts (args.take n)) =>
        exists_filling_iff_runs hblank names (hb.afterSlot (htake n) haccepts)
          (fun y hy => hargs y (List.mem_of_mem_drop (i := n) hy)) (by rw [List.length_drop]; omega)
      have hslot := mem_slot_iff (w := w) hblank hb x hargs hlen
      rw [List.map_cons]
      simp only [mem_fillings_cons]
      constructor
      · rintro ⟨b', n, hn, b₁, hb₁, hb'⟩
        obtain ⟨-, haccepts, hagrees, rfl⟩ := (hslot n b₁).mp ⟨hn, hb₁⟩
        obtain ⟨runs, hcut, hkeeps, hlater⟩ := (hrest haccepts).mp ⟨b', hb'⟩
        have hboth := fun s hs => (agrees_afterSlot_iff (htake n) hagrees).mp (hlater s hs)
        refine ⟨args.take n :: runs, ⟨?_, .cons haccepts hcut.fits, ?_⟩, ?_, ?_⟩
        · rw [List.flatten_cons, hcut.whole, List.take_append_drop]
        · exact .cons (fun s hs hxs => ((hboth s hs).2 hxs).1) hcut.agree
        · exact .cons (fun s hs hxs => ((hboth s hs).2 hxs).2) hkeeps
        · exact List.forall_mem_cons.mpr ⟨hagrees, fun s hs => (hboth s hs).1⟩
      · rintro ⟨runs, hcut, hkeeps, hagrees⟩
        cases runs with
        | nil => cases hcut.fits
        | cons run runs =>
            obtain ⟨hfit, hfits⟩ := List.forall₂_cons.mp hcut.fits
            obtain ⟨hagree, hagreeRest⟩ := List.pairwise_cons.mp hcut.agree
            obtain ⟨hkeep, hkeepsRest⟩ := List.pairwise_cons.mp hkeeps
            obtain ⟨hfirst, hlater⟩ := List.forall_mem_cons.mp hagrees
            have hwhole : args = run ++ runs.flatten := hcut.whole.symm
            have hrun : args.take run.length = run := by simp [hwhole]
            have hdrop : args.drop run.length = runs.flatten := by simp [hwhole]
            have haccepts : (blankOf x).Accepts (args.take run.length) := hrun.symm ▸ hfit
            have hagrees₁ : ∀ v, b.get? x = some v → Agrees blankOf x v (args.take run.length) :=
              hrun.symm ▸ hfirst
            obtain ⟨hn, hb₁⟩ := (hslot run.length _).mpr
              ⟨by simp [hwhole], haccepts, hagrees₁, rfl⟩
            obtain ⟨b', hb'⟩ := (hrest haccepts).mpr ⟨runs, ⟨hdrop.symm, hfits, hagreeRest⟩,
              hkeepsRest, fun s hs => (agrees_afterSlot_iff (htake _) hagrees₁).mpr
                ⟨hlater s hs, fun hxs => hrun.symm ▸ ⟨hagree s hs hxs, hkeep s hs hxs⟩⟩⟩
            exact ⟨b', run.length, hn, _, hb₁, hb'⟩

/-! ## calls -/

/-- The pattern for a call of a given head whose slots are named blanks. -/
def callOfSlots (blankOf : Symbol → Pattern) (whole head : Term) (names : List Symbol) : Pattern :=
  call whole (ofTerm head) (names.map fun x => named x (blankOf x))

/-- What holds of calls, atoms, names and blanks holds all over a call of named blanks. -/
theorem every_callOfSlots {attrs : Symbol → Attributes} (hblank : ∀ x, (blankOf x).IsBlank)
    {q : Pattern → Prop} (hcall : ∀ whole head args, q (call whole head args))
    (hatom : ∀ a, q (atom a)) (hnamed : ∀ x p, q (named x p)) (hblanks : ∀ p, p.IsBlank → q p)
    {whole f : Term} (hf : f.isLiteral attrs = true) (names : List Symbol) :
    (callOfSlots blankOf whole f names).Every q := by
  refine ⟨hcall _ _ _, every_of_isLiteral hcall hatom hf, allEvery_iff.mpr fun p hp => ?_⟩
  obtain ⟨x, -, rfl⟩ := List.mem_map.mp hp
  refine ⟨hnamed _ _, ?_⟩
  have hx := hblank x
  cases hp : blankOf x <;> rw [hp] at hx <;> first | exact hblanks _ hx | exact hx.elim

/-- A call of named blanks, of a constant head that is neither flat nor orderless, has a solution
exactly if its arguments can be cut. -/
theorem exists_solution_namedBlanks_iff (hw : w.shortcuts = false)
    (hblank : ∀ x, (blankOf x).IsBlank) {j : Nat} {whole f g : Term} {args : List Term}
    {names : List Symbol} (hf : f.isLiteral w.attributes = true) (hfg : (f == g) = true)
    (hflat : ((Term.node j g args).headAttributes w.attributes).has .flat = false)
    (horderless : ((Term.node j g args).headAttributes w.attributes).has .orderless = false)
    (hsubject : (Term.node j g args).Ordinary) :
    (∃ b', b' ∈ (callOfSlots blankOf whole f names).solutions w (.node j g args) .empty) ↔
      ∃ runs, IsCut blankOf names args runs ∧ KeepsRuns blankOf names runs := by
  have hbound : BoundFirst blankOf .empty := fun x v hv => by simp at hv
  have hfill := exists_filling_iff_runs (w := w) hblank names hbound hsubject.args
    hsubject.length_le
  have hempty : ∀ runs, (IsCut blankOf names args runs ∧ KeepsRuns blankOf names runs) ↔
      (IsCut blankOf names args runs ∧ KeepsRuns blankOf names runs ∧
        ∀ s ∈ names.zip runs, ∀ v, Bindings.empty.get? s.1 = some v → Agrees blankOf s.1 v s.2) := by
    simp
  have hheads : ∀ b₁, b₁ ∈ (ofTerm f).solutions w g .empty ↔ b₁ = .empty := by
    intro b₁
    rw [solutions_of_isLiteral hw f hf hsubject.head.ordinaryRun, hsubject.head.single?,
      Option.any_some, hfg]
    simp
  simp only [callOfSlots, mem_solutions_call_iff hw, hsubject.single?, hempty, ← hfill]
  constructor
  · rintro ⟨b', i', f', xs, b₁, hnode, hb₁, hb'⟩
    cases hnode
    obtain rfl := (hheads b₁).mp hb₁
    simp only [hflat, horderless, Bool.false_eq_true, if_false] at hb'
    exact ⟨b', hb'⟩
  · rintro ⟨b', hb'⟩
    refine ⟨b', j, g, args, .empty, rfl, (hheads _).mpr rfl, ?_⟩
    simpa only [hflat, horderless, Bool.false_eq_true, if_false] using hb'

end Cuts

end Pattern

end Termwise
