import Termwise.Proofs.Pattern.Observation

/-!
# Termwise.Proofs.Pattern.FirstSolution

The search finds the first solution: run in surroundings that show a world, it
answers what the first solution answers for which the rest of the match has an
answer (`finds_search`); so a match is the head of the solutions (`gives_match?`).
The proof follows the patterns; every choice of the search is one `findSomeM?`, every
choice of the solutions one `flatMap`.
-/

namespace Termwise

/-! ## first answers over lists -/

section Lists

variable {α β σ : Type}

theorem findSome?_flatMap (f : α → List β) (g : β → Option σ) (xs : List α) :
    (xs.flatMap f).findSome? g = xs.findSome? fun x => (f x).findSome? g := by
  induction xs with
  | nil => rfl
  | cons x xs ih =>
      rw [List.flatMap_cons, List.findSome?_append, ih, List.findSome?_cons]
      cases (f x).findSome? g <;> rfl

theorem findSome?_filter (q : α → Bool) (g : α → Option σ) (xs : List α) :
    (xs.filter q).findSome? g = xs.findSome? fun x => if q x then g x else none := by
  induction xs with
  | nil => rfl
  | cons x xs ih =>
      cases hq : q x with
      | true => simp [List.findSome?_cons, hq, ih]
      | false => simp [hq, ih]

theorem findSome?_ite_singleton (c : Bool) (x : α) (g : α → Option σ) :
    (if c then [x] else []).findSome? g = if c then g x else none := by
  cases c with
  | true => simp [List.findSome?_cons]; cases g x <;> rfl
  | false => rfl

theorem findSome?_some_unit (xs : List α) :
    (xs.findSome? fun _ => some ()) = if xs.isEmpty then none else some () := by
  cases xs <;> rfl

theorem findSome?_eq_head?_map (φ : α → σ) (xs : List α) :
    (xs.findSome? fun x => some (φ x)) = xs.head?.map φ := by
  cases xs <;> rfl

theorem findSome?_complete (fs : List (Bindings × List α)) (g : Bindings → Option σ) :
    (Pattern.complete fs).findSome? g =
      fs.findSome? fun f => if f.2.isEmpty then g f.1 else none := by
  rw [Pattern.complete, List.findSome?_map, findSome?_filter]
  rfl

end Lists

/-! ## terms and sizes that look the same -/

namespace Term

variable {t t' : Term}

theorem single?_any_congr {q : Term → Bool} (hq : ∀ a, q a.strip = q a)
    (h : t.strip = t'.strip) : t.single?.any q = t'.single?.any q := by
  have hs : t.single?.map strip = t'.single?.map strip := by
    rw [← single?_strip, h, single?_strip]
  have hany : ∀ x : Option Term, x.any q = (x.map strip).any q := by
    intro x
    cases x <;> simp [hq]
  rw [hany, hs, ← hany]

theorem run_congr (h : t.strip = t'.strip) : t.run.map strip = t'.run.map strip := by
  rw [← run_strip, h, run_strip]

theorem all_hasType_congr (type : Option Term) {xs ys : List Term}
    (h : xs.map strip = ys.map strip) : xs.all (hasType type) = ys.all (hasType type) := by
  have hall : ∀ zs : List Term, zs.all (hasType type) = (zs.map strip).all (hasType type) := by
    intro zs
    rw [List.all_map]
    exact List.all_congr rfl fun z => (hasType_strip type z).symm
  rw [hall, h, ← hall]

end Term

namespace Pattern

section Sizes

variable {b b' : Bindings}

theorem inFlat_congr {flat flat' : Option Term}
    (hf : flat.map Term.strip = flat'.map Term.strip) (s : Size)
    (shortest : Bool) : s.inFlat flat shortest = s.inFlat flat' shortest := by
  cases flat <;> cases flat' <;> simp at hf <;> rfl

mutual

/-- Bindings that look the same give a pattern the same size. -/
theorem size_congr (hb : b.strip = b'.strip) :
    ∀ (p : Pattern) (flat flat' : Option Term), flat.map Term.strip = flat'.map Term.strip →
      p.size flat b = p.size flat' b'
  | blank _, _, _, hf => inFlat_congr hf _ _
  | blankSequence _, _, _, hf => inFlat_congr hf _ _
  | blankNullSequence _, _, _, hf => inFlat_congr hf _ _
  | named name p, flat, flat', hf => by
      have hg := Bindings.get?_congr hb name
      simp only [size, size_congr hb p flat flat' hf]
      cases hv : b.get? name with
      | none =>
          rw [hv] at hg
          rw [Option.map_eq_none_iff.mp hg.symm]
      | some v =>
          rw [hv] at hg
          obtain ⟨v', hv', hvv⟩ := Option.map_eq_some_iff.mp hg.symm
          simp only [hv', Term.boundLength_congr hf hvv.symm]
  | condition p _, flat, flat', hf | tested p _, flat, flat', hf | hold p, flat, flat', hf
  | exceptThen _ p, flat, flat', hf | longest p, flat, flat', hf | shortest p, flat, flat', hf
  | optional p _, flat, flat', hf => by
      simp only [size, size_congr hb p flat flat' hf]
  | repeated p _ _ _, _, _, _ => by
      simp only [size, size_congr hb p none none rfl]
  | alternatives choices, flat, flat', hf => by
      simp only [size, sizes_congr hb choices flat flat' hf]
  | sequence parts, _, _, _ => by
      simp only [size, sizes_congr hb parts none none rfl]
  | except _, _, _, _ | literal _, _, _, _ | call _ _ _, _, _, _ | atom _, _, _, _ => rfl

theorem sizes_congr (hb : b.strip = b'.strip) :
    ∀ (ps : List Pattern) (flat flat' : Option Term),
      flat.map Term.strip = flat'.map Term.strip → sizes flat b ps = sizes flat' b' ps
  | [], _, _, _ => rfl
  | p :: ps, flat, flat', hf => by
      rw [sizes, sizes, size_congr hb p flat flat' hf, sizes_congr hb ps flat flat' hf]

end

theorem totalRange_congr (hb : b.strip = b'.strip) (ps : List Pattern) :
    totalRange ps b = totalRange ps b' := by
  rw [totalRange, totalRange, sizes_congr hb ps none none rfl]

end Sizes

/-! ## the search -/

/-- A form that a search can settle: an optional pattern carries its default, and there are tests
only where they are allowed. -/
def Settled (tests : Prop) : Pattern → Prop
  | optional _ none => False
  | condition _ _ | tested _ _ => tests
  | _ => True

instance {tests : Prop} [Decidable tests] : DecidablePred (Settled tests)
  | optional _ none => inferInstanceAs (Decidable False)
  | condition _ _ | tested _ _ => inferInstanceAs (Decidable tests)
  | optional _ (some _) | blank _ | blankSequence _ | blankNullSequence _ | named _ _
  | alternatives _ | repeated _ _ _ _ | hold _ | longest _ | shortest _ | literal _ | sequence _
  | except _ | exceptThen _ _ | call _ _ _ | atom _ => inferInstanceAs (Decidable True)

/-- A form that a search can settle where there may be no defaults to find: an optional pattern may
then be without one. -/
def SettledOr (absent tests : Prop) : Pattern → Prop
  | optional _ none => absent
  | condition _ _ | tested _ _ => tests
  | _ => True

instance {absent tests : Prop} [Decidable absent] [Decidable tests] :
    DecidablePred (SettledOr absent tests)
  | optional _ none => inferInstanceAs (Decidable absent)
  | condition _ _ | tested _ _ => inferInstanceAs (Decidable tests)
  | optional _ (some _) | blank _ | blankSequence _ | blankNullSequence _ | named _ _
  | alternatives _ | repeated _ _ _ _ | hold _ | longest _ | shortest _ | literal _ | sequence _
  | except _ | exceptThen _ _ | call _ _ _ | atom _ => inferInstanceAs (Decidable True)

theorem Settled.orAbsent {absent tests : Prop} {p : Pattern} (h : Settled tests p) :
    SettledOr absent tests p := by
  unfold Settled at h
  unfold SettledOr
  split at h <;> simp_all

variable {m : Type → Type} [Monad m] {o : Observation m} {env : Surroundings m} {w : World}
  {tests absent : Prop}

theorem gives_holds (he : env.Show o w tests) (ht : tests) {b b' : Bindings}
    (hb : b.strip = b'.strip) (test : Term) :
    o.Gives (holds env b test) (· = w.holds (test.substitute b')) := by
  refine o.gives_bind (he.evaluate ht _ _ (Term.substitute_congr hb rfl)) fun v hv => ?_
  exact o.gives_pure hv

theorem gives_accepts (he : env.Show o w tests) (ht : tests) {t t' : Term}
    (h : t.strip = t'.strip) (f : Term) :
    o.Gives (accepts env f t) (· = w.holds (.call f t'.run)) := by
  refine o.gives_bind (he.evaluate ht _ (.call f t'.run) ?_) fun v hv => o.gives_pure hv
  rw [Term.strip_call, Term.strip_call, Term.run_congr h]

/-- A search, going on with any `k`, answers what the first of the solutions answers for which
`k` has an answer. -/
structure Finds (o : Observation m) {ρ : Type}
    (search : Term → Bindings → (Bindings → m (Option ρ)) → m (Option ρ))
    (solutions : Term → Bindings → List Bindings) : Prop where
  answers : ∀ {σ : Type} {φ : ρ → σ} {t t' : Term} {b b' : Bindings}
    {k : Bindings → m (Option ρ)} {g : Bindings → Option σ},
    t.strip = t'.strip → b.strip = b'.strip →
    (∀ c c', c.strip = c'.strip → o.Answers φ (k c) (g c')) →
    o.Answers φ (search t b k) ((solutions t' b').findSome? g)

/-- `Finds` for slots, which leave over arguments that look like `ι`. -/
structure FindsFillings (o : Observation m) {ρ α ι : Type} (look : α → ι)
    (search : List α → Bindings → (Bindings → List α → m (Option ρ)) → m (Option ρ))
    (fillings : List α → Bindings → List (Bindings × List α)) : Prop where
  answers : ∀ {σ : Type} {φ : ρ → σ} {xs xs' : List α} {b b' : Bindings}
    {k : Bindings → List α → m (Option ρ)} {g : Bindings × List α → Option σ},
    xs.map look = xs'.map look → b.strip = b'.strip →
    (∀ c c' ys ys', c.strip = c'.strip → ys.map look = ys'.map look →
      o.Answers φ (k c ys) (g (c', ys'))) →
    o.Answers φ (search xs b k) ((fillings xs' b').findSome? g)

/-! ### repetitions -/

theorem finds_repeated (he : env.Show o w tests) {ρ : Type} {size : Bindings → Size}
    (hsize : ∀ b b', b.strip = b'.strip → size b = size b')
    {one : Term → Bindings → (Bindings → m (Option ρ)) → m (Option ρ)}
    {sols : Term → Bindings → List Bindings} (hone : Finds o one sols) (least most : Nat)
    {σ : Type} {φ : ρ → σ} {k : Bindings → m (Option ρ)} {g : Bindings → Option σ}
    (hk : ∀ c c', c.strip = c'.strip → o.Answers φ (k c) (g c')) :
    ∀ (bound : Nat) (items items' : List Term) (count : Nat) (b b' : Bindings),
      items.length ≤ bound → items.map Term.strip = items'.map Term.strip →
      b.strip = b'.strip →
      o.Answers φ (searchRepeated env size one least most k bound items count b)
        ((repetitions size sols least most items' count b').findSome? g)
  | bound, [], items', count, b, b', _, hi, hb => by
      obtain rfl : items' = [] := by simpa using hi.symm
      have hsearch : searchRepeated env size one least most k bound [] count b =
          guardM (least ≤ count) (k b) := by
        cases bound <;> rfl
      have hg : (repetitions size sols least most [] count b').findSome? g =
          if decide (least ≤ count) then g b' else none := by
        rw [repetitions, ← findSome?_ite_singleton]
        simp
      rw [hsearch, hg]
      exact Observation.answers_guard fun _ => hk b b' hb
  | 0, _ :: _, _, _, _, _, hlen, _, _ => by simp at hlen
  | bound + 1, item :: rest, items', count, b, b', hlen, hi, hb => by
      obtain ⟨item', rest', rfl⟩ : ∃ i r, items' = i :: r := by
        cases items' with
        | nil => simp at hi
        | cons i r => exact ⟨i, r, rfl⟩
      rw [searchRepeated, repetitions]
      by_cases hm : most ≤ count
      · simp only [hm, if_true]
        exact Observation.answers_none
      · have hl : (item :: rest).length = (item' :: rest').length := by
          simpa using congrArg List.length hi
        simp only [hm, if_false, findSome?_flatMap, hsize b b' hb, hl]
        refine Observation.answers_findSomeM? fun n hn => ?_
        refine o.gives_bind (he.share _) fun value hvalue => ?_
        have htake : ((item :: rest).take n).map Term.strip =
            ((item' :: rest').take n).map Term.strip := by
          rw [List.map_take, hi, ← List.map_take]
        refine hone.answers (hvalue.trans (Size.value_congr rfl htake)) hb fun c c' hc => ?_
        have hn0 : n ≠ 0 := by simpa using (List.mem_filter.mp hn).2
        have hdrop : ((item :: rest).drop n).map Term.strip =
            (rest'.drop (n - 1)).map Term.strip := by
          obtain ⟨n, rfl⟩ := Nat.exists_eq_succ_of_ne_zero hn0
          rw [List.map_drop, hi, ← List.map_drop]
          rfl
        refine finds_repeated he hsize hone least most hk bound _ _ _ _ _ ?_ hdrop hc
        simp only [List.length_drop, List.length_cons] at hlen ⊢
        omega

/-! ### single forms -/

/-- Forms that only look at the term. -/
theorem finds_guard (he : env.Show o w tests) {cond : Term → Bool}
    (hcond : ∀ {t t' : Term}, t.strip = t'.strip → cond t = cond t') (ρ : Type) :
    Finds o (fun t b (k : Bindings → m (Option ρ)) => do env.tick; guardM (cond t) (k b))
      (fun t b => if cond t then [b] else []) := by
  refine ⟨fun {σ φ t t' b b' k g} ht hb hk => ?_⟩
  rw [findSome?_ite_singleton, ← hcond ht]
  exact o.gives_bind he.tick fun _ _ => Observation.answers_guard fun _ => hk b b' hb

variable {p no : Pattern} {ρ : Type}

theorem finds_named (he : env.Show o w tests) (hp : Finds o (p.search env ρ) (p.solutions w))
    (name : Symbol) :
    Finds o ((named name p).search env ρ) ((named name p).solutions w) := by
  refine ⟨fun {σ φ t t' b b' k g} ht hb hk => ?_⟩
  rw [search, solutions]
  refine o.gives_bind he.tick fun _ _ => ?_
  have hg := Bindings.get?_congr hb name
  cases hv : b.get? name with
  | none =>
      rw [hv] at hg
      rw [Option.map_eq_none_iff.mp hg.symm]
      refine hp.answers ht ?_ hk
      rw [Bindings.strip_push, Bindings.strip_push, hb, ht]
  | some v =>
      rw [hv] at hg
      obtain ⟨v', hv', hvv⟩ := Option.map_eq_some_iff.mp hg.symm
      have heq : (v == t) = (v' == t') := Term.beq_congr hvv.symm ht
      rw [hv']
      simp only [heq]
      cases v' == t' with
      | true => exact hp.answers ht hb hk
      | false => exact Observation.answers_none

/-- Forms that test what another pattern has found. -/
theorem finds_filter (he : env.Show o w tests) (hp : Finds o (p.search env ρ) (p.solutions w))
    {test : Term → Bindings → m Bool} {passes : Term → Bindings → Bool}
    (htest : ∀ {t t' : Term} {b b' : Bindings}, t.strip = t'.strip → b.strip = b'.strip →
      o.Gives (test t b) (· = passes t' b')) :
    Finds o (fun t b k => do env.tick; p.search env ρ t b fun c => do guardM (← test t c) (k c))
      (fun t b => (p.solutions w t b).filter (passes t)) := by
  refine ⟨fun {σ φ t t' b b' k g} ht hb hk => ?_⟩
  rw [findSome?_filter]
  refine o.gives_bind he.tick fun _ _ => hp.answers ht hb fun c c' hc => ?_
  refine o.gives_bind (htest ht hc) fun verdict hverdict => ?_
  subst hverdict
  exact Observation.answers_guard fun _ => hk c c' hc

theorem isEmptyRun_congr {t t' : Term} (ht : t.strip = t'.strip) :
    (t.isMarker && t.args.isEmpty) = (t'.isMarker && t'.args.isEmpty) := by
  have hm : t.isMarker = t'.isMarker := by
    rw [← Term.isMarker_strip t, ht, Term.isMarker_strip]
  have ha : t.args.map Term.strip = t'.args.map Term.strip := by
    rw [← Term.args_strip, ht, Term.args_strip]
  rw [hm, ← List.isEmpty_map (f := Term.strip), ha, List.isEmpty_map]

theorem finds_optional (he : env.Show o w tests) (hp : Finds o (p.search env ρ) (p.solutions w))
    (d : Term) :
    Finds o ((optional p (some d)).search env ρ) ((optional p (some d)).solutions w) := by
  refine ⟨fun {σ φ t t' b b' k g} ht hb hk => ?_⟩
  rw [search, solutions]
  refine o.gives_bind he.tick fun _ _ => ?_
  simp only [isEmptyRun_congr ht]
  split
  · exact o.gives_bind (o.gives_pure rfl) fun x hx => by
      subst hx
      exact hp.answers rfl hb hk
  · exact hp.answers ht hb hk

/-- An optional pattern without a default takes nothing where no default is found. -/
theorem finds_optional_none (he : env.Show o w tests) (hd : o.Gives env.default? (· = none))
    (hp : Finds o (p.search env ρ) (p.solutions w)) :
    Finds o ((optional p none).search env ρ) ((optional p none).solutions w) := by
  refine ⟨fun {σ φ t t' b b' k g} ht hb hk => ?_⟩
  rw [search, solutions]
  refine o.gives_bind he.tick fun _ _ => ?_
  simp only [isEmptyRun_congr ht]
  split
  · exact o.gives_bind hd fun x hx => by
      subst hx
      exact Observation.answers_none
  · exact hp.answers ht hb hk

/-- What is excluded is searched for with nothing to follow. -/
theorem gives_excluded (hno : Finds o (no.search env Unit) (no.solutions w)) {t t' : Term}
    {b b' : Bindings} (ht : t.strip = t'.strip) (hb : b.strip = b'.strip) :
    o.Gives (no.search env Unit t b fun _ => pure (some ()))
      (fun r => r.isNone = (no.solutions w t' b').isEmpty) := by
  have h : o.Answers id (no.search env Unit t b fun _ => pure (some ()))
      ((no.solutions w t' b').findSome? fun _ => some ()) :=
    hno.answers ht hb fun _ _ _ => o.gives_pure rfl
  rw [findSome?_some_unit] at h
  refine o.gives_mono h fun r hr => ?_
  rw [Option.map_id_fun, id] at hr
  rw [hr]
  cases (no.solutions w t' b').isEmpty <;> rfl

theorem finds_except (he : env.Show o w tests)
    (hno : Finds o (no.search env Unit) (no.solutions w)) :
    Finds o ((except no).search env ρ) ((except no).solutions w) := by
  refine ⟨fun {σ φ t t' b b' k g} ht hb hk => ?_⟩
  rw [search, solutions, findSome?_ite_singleton]
  refine o.gives_bind he.tick fun _ _ => o.gives_bind (gives_excluded hno ht hb) fun r hr => ?_
  rw [← hr]
  cases r with
  | some _ => exact Observation.answers_none
  | none =>
      have hs : t.single?.isSome = t'.single?.isSome := by
        rw [← Option.isSome_map (f := Term.strip), ← Term.single?_strip, ht, Term.single?_strip,
          Option.isSome_map]
      simp only [Option.isNone_none, Bool.true_and, ← hs]
      exact Observation.answers_guard fun _ => hk b b' hb

theorem finds_exceptThen (he : env.Show o w tests)
    (hno : Finds o (no.search env Unit) (no.solutions w))
    (hp : Finds o (p.search env ρ) (p.solutions w)) :
    Finds o ((exceptThen no p).search env ρ) ((exceptThen no p).solutions w) := by
  refine ⟨fun {σ φ t t' b b' k g} ht hb hk => ?_⟩
  rw [search, solutions]
  refine o.gives_bind he.tick fun _ _ => o.gives_bind (gives_excluded hno ht hb) fun r hr => ?_
  rw [← hr]
  cases r with
  | some _ => exact Observation.answers_none
  | none => exact hp.answers ht hb hk

/-! ### slots -/

theorem finds_nil_slots (flat flat' : Option Term) (head : Term) (count index : Nat) :
    FindsFillings o Term.strip (searchSlots env [] ρ flat head count index)
      (fillings w [] flat') := by
  refine ⟨fun {σ φ xs xs' b b' k g} hx hb hk => ?_⟩
  rw [searchSlots, fillings, List.findSome?_singleton]
  exact hk b b' xs xs' hb hx

theorem finds_cons_slots (he : env.Show o w tests) {ps : List Pattern}
    (hp : Finds o (p.search env ρ) (p.solutions w)) {flat flat' : Option Term}
    (hf : flat.map Term.strip = flat'.map Term.strip) {head : Term} {count index : Nat}
    (hps : FindsFillings o Term.strip (searchSlots env ps ρ flat head count (index + 1))
      (fillings w ps flat')) :
    FindsFillings o Term.strip (searchSlots env (p :: ps) ρ flat head count index)
      (fillings w (p :: ps) flat') := by
  refine ⟨fun {σ φ xs xs' b b' k g} hx hb hk => ?_⟩
  have hlen : xs.length = xs'.length := by simpa using congrArg List.length hx
  rw [searchSlots, fillings, findSome?_flatMap, ← size_congr hb p flat flat' hf, hlen]
  refine Observation.answers_findSomeM? fun n _ => ?_
  refine o.gives_bind (he.share _) fun value hvalue => o.gives_bind (he.enter _) fun _ _ => ?_
  rw [findSome?_flatMap]
  have htake : (xs.take n).map Term.strip = (xs'.take n).map Term.strip := by
    rw [List.map_take, hx, ← List.map_take]
  have hdrop : (xs.drop n).map Term.strip = (xs'.drop n).map Term.strip := by
    rw [List.map_drop, hx, ← List.map_drop]
  exact hp.answers (hvalue.trans (Size.value_congr hf htake)) hb fun c c' hc =>
    hps.answers hdrop hc hk

/-- How an argument with its position looks. -/
def lookPlaced (x : Term × Nat) : Term × Nat := (x.1.strip, x.2)

theorem map_strip_of_map_lookPlaced {xs ys : List (Term × Nat)}
    (h : xs.map lookPlaced = ys.map lookPlaced) :
    (xs.map (·.1)).map Term.strip = (ys.map (·.1)).map Term.strip := by
  have h1 := congrArg (List.map Prod.fst) h
  simpa [lookPlaced, Function.comp_def] using h1

theorem finds_nil_anywhere (flat flat' : Option Term) (head : Term) (count index : Nat) :
    FindsFillings o lookPlaced (searchAnywhere env [] ρ flat head count index)
      (fillingsAnywhere w [] flat') := by
  refine ⟨fun {σ φ xs xs' b b' k g} hx hb hk => ?_⟩
  rw [searchAnywhere, fillingsAnywhere, List.findSome?_singleton]
  exact hk b b' xs xs' hb hx

theorem finds_cons_anywhere (he : env.Show o w tests) {ps : List Pattern}
    (hp : Finds o (p.search env ρ) (p.solutions w)) {flat flat' : Option Term}
    (hf : flat.map Term.strip = flat'.map Term.strip) {head : Term} {count index : Nat}
    (hps : FindsFillings o lookPlaced (searchAnywhere env ps ρ flat head count (index + 1))
      (fillingsAnywhere w ps flat')) :
    FindsFillings o lookPlaced (searchAnywhere env (p :: ps) ρ flat head count index)
      (fillingsAnywhere w (p :: ps) flat') := by
  refine ⟨fun {σ φ xs xs' b b' k g} hx hb hk => ?_⟩
  have hlen : xs.length = xs'.length := by simpa using congrArg List.length hx
  rw [searchAnywhere, fillingsAnywhere, findSome?_flatMap, ← size_congr hb p flat flat' hf, hlen]
  refine Observation.answers_findSomeM? fun n _ => ?_
  rw [findSome?_flatMap]
  refine Observation.answers_chooseM hx fun taken left taken' left' htaken hleft => ?_
  refine o.gives_bind (he.share _) fun value hvalue => o.gives_bind (he.enter _) fun _ _ => ?_
  rw [findSome?_flatMap]
  have hitems := map_strip_of_map_lookPlaced htaken
  exact hp.answers (hvalue.trans (Size.value_congr hf hitems)) hb fun c c' hc =>
    hps.answers hleft hc hk

/-- Slots that have to be filled from all arguments. -/
theorem FindsFillings.complete {α ι : Type} {look : α → ι}
    {search : List α → Bindings → (Bindings → List α → m (Option ρ)) → m (Option ρ)}
    {fills : List α → Bindings → List (Bindings × List α)}
    (h : FindsFillings o look search fills) {σ : Type} {φ : ρ → σ} {xs xs' : List α}
    {b b' : Bindings} {k : Bindings → m (Option ρ)} {g : Bindings → Option σ}
    (hx : xs.map look = xs'.map look) (hb : b.strip = b'.strip)
    (hk : ∀ c c', c.strip = c'.strip → o.Answers φ (k c) (g c')) :
    o.Answers φ (search xs b fun c rest => guardM rest.isEmpty (k c))
      ((Pattern.complete (fills xs' b')).findSome? g) := by
  rw [findSome?_complete]
  refine h.answers hx hb fun c c' ys ys' hc hys => ?_
  have hempty : ys'.isEmpty = ys.isEmpty := by
    rw [← List.isEmpty_map (f := look), ← hys, List.isEmpty_map]
  rw [hempty]
  exact Observation.answers_guard fun _ => hk c c' hc

/-! ### calls -/

/-- The arguments of a call, once its head is matched. -/
theorem answers_args (hw : w.shortcuts = true) {args : List Pattern}
    (hslots : ∀ (flat flat' : Option Term) (f : Term) (count index : Nat),
      flat.map Term.strip = flat'.map Term.strip →
      FindsFillings o Term.strip (searchSlots env args ρ flat f count index)
        (fillings w args flat'))
    (hanywhere : ∀ (flat flat' : Option Term) (f : Term) (count index : Nat),
      flat.map Term.strip = flat'.map Term.strip →
      FindsFillings o lookPlaced (searchAnywhere env args ρ flat f count index)
        (fillingsAnywhere w args flat'))
    (attrs : Attributes) {σ : Type} {φ : ρ → σ} {f f' : Term} {xs xs' : List Term}
    {b b' : Bindings} {k : Bindings → m (Option ρ)} {g : Bindings → Option σ}
    (hf : f.strip = f'.strip) (hx : xs.map Term.strip = xs'.map Term.strip)
    (hb : b.strip = b'.strip) (hk : ∀ c c', c.strip = c'.strip → o.Answers φ (k c) (g c')) :
    o.Answers φ
      (let flat := if attrs.has .flat then some f else none
      let (least, most) := totalRange args b
      if !attrs.has .flat && (xs.length < least || most < xs.length) then pure none
      else if attrs.has .orderless then
        searchAnywhere env args ρ flat f args.length 1 xs.zipIdx b
          fun b free => guardM free.isEmpty (k b)
      else
        searchSlots env args ρ flat f args.length 1 xs b
          fun b rest => guardM rest.isEmpty (k b))
      (((let flat := if attrs.has .flat then some f' else none
      let (least, most) := totalRange args b'
      if w.shortcuts && !attrs.has .flat && (xs'.length < least || most < xs'.length) then []
      else if attrs.has .orderless then complete (fillingsAnywhere w args flat xs'.zipIdx b')
      else complete (fillings w args flat xs' b')) : List Bindings).findSome? g) := by
  have hlen : xs.length = xs'.length := by simpa using congrArg List.length hx
  have hflat : (if attrs.has .flat then some f else none).map Term.strip =
      (if attrs.has .flat then some f' else none).map Term.strip := by
    split <;> simp [hf]
  simp only [totalRange_congr hb args, hlen, hw, Bool.true_and]
  split
  · exact Observation.answers_none
  · split
    · have hplaced : xs.zipIdx.map lookPlaced = xs'.zipIdx.map lookPlaced := by
        have hmap : ∀ zs : List Term, zs.zipIdx.map lookPlaced = (zs.map Term.strip).zipIdx := by
          intro zs
          rw [List.zipIdx_map]
          rfl
        rw [hmap, hx, ← hmap]
      exact (hanywhere _ _ f args.length 1 hflat).complete hplaced hb hk
    · exact (hslots _ _ f args.length 1 hflat).complete hx hb hk

theorem finds_call (he : env.Show o w tests) (hw : w.shortcuts = true) {whole : Term}
    {args : List Pattern} (hhead : Finds o (p.search env ρ) (p.solutions w))
    (hslots : ∀ (flat flat' : Option Term) (f : Term) (count index : Nat),
      flat.map Term.strip = flat'.map Term.strip →
      FindsFillings o Term.strip (searchSlots env args ρ flat f count index)
        (fillings w args flat'))
    (hanywhere : ∀ (flat flat' : Option Term) (f : Term) (count index : Nat),
      flat.map Term.strip = flat'.map Term.strip →
      FindsFillings o lookPlaced (searchAnywhere env args ρ flat f count index)
        (fillingsAnywhere w args flat')) :
    Finds o ((call whole p args).search env ρ) ((call whole p args).solutions w) := by
  refine ⟨fun {σ φ t t' b b' k g} ht hb hk => ?_⟩
  rw [search, solutions]
  refine o.gives_bind he.tick fun _ _ => ?_
  have hs : t.single?.map Term.strip = t'.single?.map Term.strip := by
    rw [← Term.single?_strip, ht, Term.single?_strip]
  cases hv : t.single? with
  | none =>
      rw [hv] at hs
      rw [Option.map_eq_none_iff.mp hs.symm]
      exact Observation.answers_none
  | some s =>
      rw [hv] at hs
      obtain ⟨s', hv', hss⟩ := Option.map_eq_some_iff.mp hs.symm
      rw [hv']
      refine o.gives_bind he.attributes fun attrs hattrs => ?_
      subst hattrs
      simp only [hw, Bool.true_and]
      cases whole.isLiteral w.attributes with
      | true =>
          have heq : (whole == s) = (whole == s') := Term.beq_congr rfl hss.symm
          simp only [if_true, heq]
          rw [findSome?_ite_singleton]
          exact Observation.answers_guard fun _ => hk b b' hb
      | false =>
          simp only [Bool.false_eq_true, if_false]
          cases s <;> cases s' <;> simp only [Term.strip, reduceCtorEq] at hss <;>
            try exact Observation.answers_none
          case node.node i f xs j f' xs' =>
            obtain ⟨-, hf, hx⟩ := Term.node.inj hss
            rw [Term.stripAll_eq_map, Term.stripAll_eq_map] at hx
            rw [findSome?_flatMap]
            refine hhead.answers hf.symm hb fun c c' hc => ?_
            refine o.gives_bind he.attributes fun attrs hattrs => ?_
            subst hattrs
            have hhead : (Term.node i f xs).headAttributes w.attributes =
                (Term.node j f' xs').headAttributes w.attributes := by
              rw [← Term.headAttributes_strip, ← Term.headAttributes_strip w.attributes (.node j f' xs')]
              simp only [Term.strip, hf, Term.stripAll_eq_map, hx]
            rw [hhead]
            have h := answers_args hw hslots hanywhere
              ((Term.node j f' xs').headAttributes w.attributes) hf.symm hx.symm hc hk
            rw [hw, Bool.true_and] at h
            exact h

/-! ### all patterns -/

mutual

/-- The search finds the first solution. -/
theorem finds_search (he : env.Show o w tests)
    (hd : absent → o.Gives env.default? (· = none)) (hw : w.shortcuts = true) :
    ∀ p : Pattern, p.Every (SettledOr absent tests) → ∀ ρ : Type,
      Finds o (p.search env ρ) (p.solutions w)
  | atom a, _, ρ | literal a, _, ρ =>
      finds_guard he (fun h => Term.single?_any_congr (q := (· == a))
        (fun x => Term.beq_congr (by simp) rfl) h) ρ
  | blank type, _, ρ =>
      finds_guard he (fun h => Term.single?_any_congr (Term.hasType_strip type) h) ρ
  | blankSequence type, _, ρ => by
      refine finds_guard he (fun {t t'} h => ?_) ρ
      have hr := Term.run_congr h
      rw [Term.all_hasType_congr type hr, ← List.isEmpty_map (f := Term.strip), hr,
        List.isEmpty_map]
  | blankNullSequence type, _, ρ =>
      finds_guard he (fun h => Term.all_hasType_congr type (Term.run_congr h)) ρ
  | named name p, hp, ρ => finds_named he (finds_search he hd hw p hp.2 ρ) name
  | condition p test, hp, ρ =>
      finds_filter he (finds_search he hd hw p hp.2 ρ) fun _ hb => gives_holds he hp.1 hb test
  | tested p f, hp, ρ =>
      finds_filter he (finds_search he hd hw p hp.2 ρ) fun ht _ => gives_accepts he hp.1 ht f
  | alternatives choices, hp, ρ => by
      refine ⟨fun {σ φ t t' b b' k g} ht hb hk => ?_⟩
      rw [search, solutions]
      exact o.gives_bind he.tick fun _ _ =>
        (finds_searchChoices he hd hw choices hp.2 ρ).answers ht hb hk
  | repeated p _ least most, hp, ρ => by
      refine ⟨fun {σ φ t t' b b' k g} ht hb hk => ?_⟩
      rw [search, solutions]
      refine o.gives_bind he.tick fun _ _ => ?_
      exact finds_repeated he (fun _ _ h => size_congr h p none none rfl)
        (finds_search he hd hw p hp.2 ρ) least most hk _ _ _ _ _ _ (Nat.le_refl _)
        (Term.run_congr ht) hb
  | optional p (some d), hp, ρ => finds_optional he (finds_search he hd hw p hp.2 ρ) d
  | optional p none, hp, ρ => finds_optional_none he (hd hp.1) (finds_search he hd hw p hp.2 ρ)
  | hold p, hp, ρ | longest p, hp, ρ | shortest p, hp, ρ => by
      refine ⟨fun {σ φ t t' b b' k g} ht hb hk => ?_⟩
      rw [search, solutions]
      exact o.gives_bind he.tick fun _ _ => (finds_search he hd hw p hp.2 ρ).answers ht hb hk
  | sequence parts, hp, ρ => by
      refine ⟨fun {σ φ t t' b b' k g} ht hb hk => ?_⟩
      rw [search, solutions]
      refine o.gives_bind he.tick fun _ _ => ?_
      exact (finds_searchSlots he hd hw parts hp.2 ρ none none rfl _ _ _).complete
        (Term.run_congr ht) hb hk
  | except no, hp, ρ => finds_except he (finds_search he hd hw no hp.2 Unit)
  | exceptThen no p, hp, ρ =>
      finds_exceptThen he (finds_search he hd hw no hp.2.1 Unit) (finds_search he hd hw p hp.2.2 ρ)
  | call whole head args, hp, ρ =>
      finds_call he hw (finds_search he hd hw head hp.2.1 ρ)
        (fun flat flat' f count index hf =>
          finds_searchSlots he hd hw args hp.2.2 ρ flat flat' hf f count index)
        (fun flat flat' f count index hf =>
          finds_searchAnywhere he hd hw args hp.2.2 ρ flat flat' hf f count index)

theorem finds_searchChoices (he : env.Show o w tests)
    (hd : absent → o.Gives env.default? (· = none)) (hw : w.shortcuts = true) :
    ∀ ps : List Pattern, AllEvery (SettledOr absent tests) ps → ∀ ρ : Type,
      Finds o (searchChoices env ps ρ) (solutionsOfAny w ps)
  | [], _, ρ => ⟨fun _ _ _ => Observation.answers_none⟩
  | p :: ps, hp, ρ => by
      refine ⟨fun {σ φ t t' b b' k g} ht hb hk => ?_⟩
      rw [searchChoices, solutionsOfAny, List.findSome?_append]
      exact Observation.answers_or ((finds_search he hd hw p hp.1 ρ).answers ht hb hk)
        ((finds_searchChoices he hd hw ps hp.2 ρ).answers ht hb hk)

theorem finds_searchSlots (he : env.Show o w tests)
    (hd : absent → o.Gives env.default? (· = none)) (hw : w.shortcuts = true) :
    ∀ ps : List Pattern, AllEvery (SettledOr absent tests) ps → ∀ (ρ : Type)
      (flat flat' : Option Term), flat.map Term.strip = flat'.map Term.strip →
      ∀ (head : Term) (count index : Nat),
      FindsFillings o Term.strip (searchSlots env ps ρ flat head count index) (fillings w ps flat')
  | [], _, _, flat, flat', _, head, count, index => finds_nil_slots flat flat' head count index
  | p :: ps, hp, ρ, flat, flat', hf, head, count, index =>
      finds_cons_slots he (finds_search he hd hw p hp.1 ρ) hf
        (finds_searchSlots he hd hw ps hp.2 ρ flat flat' hf head count (index + 1))

theorem finds_searchAnywhere (he : env.Show o w tests)
    (hd : absent → o.Gives env.default? (· = none)) (hw : w.shortcuts = true) :
    ∀ ps : List Pattern, AllEvery (SettledOr absent tests) ps → ∀ (ρ : Type)
      (flat flat' : Option Term), flat.map Term.strip = flat'.map Term.strip →
      ∀ (head : Term) (count index : Nat),
      FindsFillings o lookPlaced (searchAnywhere env ps ρ flat head count index)
        (fillingsAnywhere w ps flat')
  | [], _, _, flat, flat', _, head, count, index => finds_nil_anywhere flat flat' head count index
  | p :: ps, hp, ρ, flat, flat', hf, head, count, index =>
      finds_cons_anywhere he (finds_search he hd hw p hp.1 ρ) hf
        (finds_searchAnywhere he hd hw ps hp.2 ρ flat flat' hf head count (index + 1))

end

/-- Matching gives the first solution. -/
theorem gives_match? (he : env.Show o w tests) (hd : absent → o.Gives env.default? (· = none))
    (hw : w.shortcuts = true) (hp : p.Every (SettledOr absent tests)) {t t' : Term}
    (ht : t.strip = t'.strip) :
    o.Gives (p.match? env t) fun answer =>
      answer.map Bindings.strip = (p.solutions w t' .empty).head?.map Bindings.strip := by
  rw [← findSome?_eq_head?_map]
  exact (finds_search he hd hw p hp Bindings).answers ht rfl fun c c' hc =>
    o.gives_pure (by rw [Option.map_some, hc])

end Pattern

end Termwise
