import Termwise.Proofs.Pattern.Congruence

/-!
# Termwise.Proofs.Pattern.Parking

A search that parks its errors.  Where a search calls for something that fails, the
whole search ends there; nothing more is asked for.  It does so by the monad it runs in.
A search can also do it by itself: it keeps the error (`ParkedM`), has no result from
there on, and looks before every further choice whether an error has been kept.  A look
that is left out shows: an excluded pattern that failed would let its subject pass, and
the next alternative would be tried.

`Pattern.searchParked` and `Rule.rewriteParked` are the search and the rewriting written
that way.  They do what `Pattern.search` and `Rule.rewrite` do (`Pattern.parks_search`,
`Rule.parks_rewrite`).
-/

namespace Termwise

variable {m : Type → Type} [Monad m] {σ ε : Type} {α ρ : Type}

/-- An action with a state of its own that goes on after an error, which it keeps. -/
abbrev ParkedM (σ ε : Type) (m : Type → Type) := StateT (σ × Option ε) m

namespace ParkedM

/-- Go on unless an error has been kept. -/
def unlessStopped (x : ParkedM σ ε m (Option ρ)) : ParkedM σ ε m (Option ρ) := do
  if (← get).2.isSome then return none else x

/-- Go on with the result of an action; if it fails there is no result, and the error is kept unless
there is one already. -/
def trying (x : StateT σ (ExceptT ε m) α) (f : α → ParkedM σ ε m (Option ρ)) :
    ParkedM σ ε m (Option ρ) := fun s => do
  match ← (x.run s.1).run with
  | .ok (a, own) => (f a).run (own, s.2)
  | .error e => return (none, s.1, s.2.or (some e))

/-- What is made of the result of a search; without one another search, unless an error has been
kept. -/
def orElse (x : ParkedM σ ε m (Option α)) (f : α → Option ρ) (y : ParkedM σ ε m (Option ρ)) :
    ParkedM σ ε m (Option ρ) := do
  match ← x with
  | some a => return f a
  | none => unlessStopped y

/-- The first result for a list of choices, until an error has been kept. -/
def firstOf (f : α → ParkedM σ ε m (Option ρ)) : List α → ParkedM σ ε m (Option ρ)
  | [] => pure none
  | x :: xs => orElse (f x) some (firstOf f xs)

/-- Try every way to take `n` items out of a list, as `chooseM` does, until an error has been
kept. -/
def choose : Nat → List α → (List α → List α → ParkedM σ ε m (Option ρ)) → ParkedM σ ε m (Option ρ)
  | 0, xs, k => k [] xs
  | _ + 1, [], _ => pure none
  | n + 1, x :: xs, k =>
    orElse (choose n xs fun taken left => k (x :: taken) left) some
      (choose (n + 1) xs fun taken left => k taken (x :: left))

/-- The result, unless an error has been kept. -/
def finish : Option ρ × σ × Option ε → Except ε (Option ρ × σ)
  | (r, own, none) => .ok (r, own)
  | (_, _, some e) => .error e

end ParkedM

/-! ## searches -/

namespace Pattern

/-- Match items as consecutive repetitions of a pattern, as `searchRepeated` does. -/
def searchRepeatedParked (env : Surroundings (StateT σ (ExceptT ε m))) (size : Bindings → Size)
    (one : Term → Bindings → (Bindings → ParkedM σ ε m (Option ρ)) → ParkedM σ ε m (Option ρ))
    (least most : Nat) (k : Bindings → ParkedM σ ε m (Option ρ)) :
    Nat → List Term → Nat → Bindings → ParkedM σ ε m (Option ρ)
  | _, [], count, b => guardM (least ≤ count) (k b)
  | 0, _ :: _, _, _ => pure none
  | bound + 1, item :: rest, count, b =>
    if most ≤ count then pure none
    else
      let items := item :: rest
      let s := size b
      ParkedM.firstOf (fun n => .trying (env.share (s.value none (items.take n))) fun value =>
        one value b fun b => searchRepeatedParked env size one least most k bound (items.drop n)
          (count + 1) b) ((s.counts items.length).filter (· != 0))

mutual

/-- Match a pattern against a term, then run `k` on the bindings, as `search` does. -/
def searchParked (env : Surroundings (StateT σ (ExceptT ε m))) :
    Pattern → (ρ : Type) → Term → Bindings → (Bindings → ParkedM σ ε m (Option ρ)) →
      ParkedM σ ε m (Option ρ)
  | p, ρ, t, b, k => .unlessStopped <| .trying env.tick fun _ =>
    match p with
    | atom a | literal a => guardM (t.single?.any (· == a)) (k b)
    | blank type => guardM (t.single?.any (Term.hasType type)) (k b)
    | blankSequence type => guardM (!t.run.isEmpty && t.run.all (Term.hasType type)) (k b)
    | blankNullSequence type => guardM (t.run.all (Term.hasType type)) (k b)
    | named name p =>
      match b.get? name with
      | some value => guardM (value == t) (p.searchParked env ρ t b k)
      | none => p.searchParked env ρ t (b.push name t) k
    | condition p test => p.searchParked env ρ t b fun b =>
      .trying (holds env b test) fun c => guardM c (k b)
    | tested p f => p.searchParked env ρ t b fun b =>
      .trying (accepts env f t) fun c => guardM c (k b)
    | alternatives choices => searchChoicesParked env choices ρ t b k
    | repeated p _ least most =>
      searchRepeatedParked env (fun b => p.size none b) (p.searchParked env ρ) least most k
        t.run.length t.run 0 b
    | optional p default =>
      if t.isMarker && t.args.isEmpty then
        .trying (match default with
          | some d => pure (some d)
          | none => env.default?) fun
        | some d => p.searchParked env ρ d b k
        | none => pure none
      else p.searchParked env ρ t b k
    | hold p | longest p | shortest p => p.searchParked env ρ t b k
    | sequence parts =>
      searchSlotsParked env parts ρ none (.symbol .patternSequence) parts.length 1 t.run b
        fun b rest => guardM rest.isEmpty (k b)
    | except no =>
      .orElse (no.searchParked env Unit t b fun _ => pure (some ())) (fun _ => none)
        (guardM t.single?.isSome (k b))
    | exceptThen no p =>
      .orElse (no.searchParked env Unit t b fun _ => pure (some ())) (fun _ => none)
        (p.searchParked env ρ t b k)
    | call whole head args =>
      match t.single? with
      | none => pure none
      | some subject => .trying env.attributes fun attrs =>
        if whole.isLiteral attrs then guardM (whole == subject) (k b)
        else
          match subject with
          | .node _ f xs =>
            head.searchParked env ρ f b fun b => .trying env.attributes fun attrs =>
              let attrs := subject.headAttributes attrs
              let flat := if attrs.has .flat then some f else none
              let (least, most) := totalRange args b
              if !attrs.has .flat && (xs.length < least || most < xs.length) then pure none
              else if attrs.has .orderless then
                searchAnywhereParked env args ρ flat f args.length 1 xs.zipIdx b
                  fun b free => guardM free.isEmpty (k b)
              else
                searchSlotsParked env args ρ flat f args.length 1 xs b
                  fun b rest => guardM rest.isEmpty (k b)
          | _ => pure none

/-- Match one of several patterns, as `searchChoices` does. -/
def searchChoicesParked (env : Surroundings (StateT σ (ExceptT ε m))) :
    List Pattern → (ρ : Type) → Term → Bindings → (Bindings → ParkedM σ ε m (Option ρ)) →
      ParkedM σ ε m (Option ρ)
  | [], _, _, _, _ => pure none
  | p :: ps, ρ, t, b, k =>
    .orElse (p.searchParked env ρ t b k) some (searchChoicesParked env ps ρ t b k)

/-- Fill slots from left to right, as `searchSlots` does. -/
def searchSlotsParked (env : Surroundings (StateT σ (ExceptT ε m))) :
    List Pattern → (ρ : Type) → Option Term → Term → Nat → Nat → List Term → Bindings →
      (Bindings → List Term → ParkedM σ ε m (Option ρ)) → ParkedM σ ε m (Option ρ)
  | [], _, _, _, _, _, args, b, k => k b args
  | p :: ps, ρ, flat, head, count, index, args, b, k =>
    let s := p.size flat b
    ParkedM.firstOf (fun n => .trying (env.share (s.value flat (args.take n))) fun value =>
      .trying (env.enter ⟨head, index, count⟩) fun _ =>
        p.searchParked env ρ value b fun b =>
          searchSlotsParked env ps ρ flat head count (index + 1) (args.drop n) b k)
      (s.counts args.length)

/-- Fill slots from any free arguments, as `searchAnywhere` does. -/
def searchAnywhereParked (env : Surroundings (StateT σ (ExceptT ε m))) :
    List Pattern → (ρ : Type) → Option Term → Term → Nat → Nat → List (Term × Nat) → Bindings →
      (Bindings → List (Term × Nat) → ParkedM σ ε m (Option ρ)) → ParkedM σ ε m (Option ρ)
  | [], _, _, _, _, _, free, b, k => k b free
  | p :: ps, ρ, flat, head, count, index, free, b, k =>
    let s := p.size flat b
    ParkedM.firstOf (fun n => .choose n free fun taken left =>
      .trying (env.share (s.value flat (taken.map (·.1)))) fun value =>
        .trying (env.enter ⟨head, index, count⟩) fun _ =>
          p.searchParked env ρ value b fun b =>
            searchAnywhereParked env ps ρ flat head count (index + 1) left b k)
      (s.counts free.length)

end

end Pattern

/-! ## rewriting -/

namespace Rule

/-- Rewrite a part of a call of a flat head, as `applyInside` does. -/
def applyInsideParked (env : Surroundings (StateT σ (ExceptT ε m))) (head : Pattern)
    (slots : List Pattern) (rhs : Term) (orderless : Bool) (subjectHead : Term)
    (args : List Term) : ParkedM σ ε m (Option Term) :=
  if orderless then
    head.searchParked env Term subjectHead .empty fun b =>
      Pattern.searchAnywhereParked env slots Term (some subjectHead) subjectHead slots.length 1
        args.zipIdx b fun b free => .trying (instantiate env rhs b) fun result =>
          return result.map (spliceFree subjectHead args (free.map (·.2)))
  else
    ParkedM.firstOf (fun start =>
      head.searchParked env Term subjectHead .empty fun b =>
        Pattern.searchSlotsParked env slots Term (some subjectHead) subjectHead slots.length 1
          (args.drop start) b fun b rest => .trying (instantiate env rhs b) fun result =>
            return result.map (spliceRange subjectHead args start rest.length))
      (List.range args.length)

/-- Rewrite a subject with a left-hand and a right-hand side, as `rewrite` does. -/
def rewriteParked (env : Surroundings (StateT σ (ExceptT ε m))) (lhs rhs subject : Term) :
    ParkedM σ ε m (Option Term) :=
  let p := Pattern.ofTerm lhs
  .orElse
    (p.searchParked env Term subject .empty fun b => .trying (instantiate env rhs b) pure) some
    (match p.unheld, subject with
    | .call whole head slots, .node _ (.symbol f) args => .trying env.attributes fun attrs =>
      let attrs := attrs f
      if attrs.has .flat && whole.key == .symbol f && !args.isEmpty then
        applyInsideParked env head slots rhs (attrs.has .orderless) subject.key args
      else return none
    | _, _ => return none)

end Rule

/-! ## parking an error is failing with it -/

/-- Started without an error, the one action keeps the error the other one fails with, and else
has its result; they have the same effects. -/
def ParkedM.Parks (x : ParkedM σ ε m (Option ρ)) (y : StateT σ (ExceptT ε m) (Option ρ)) : Prop :=
  ∀ s : σ, finish <$> x.run (s, none) = (y.run s).run

namespace ParkedM

variable [LawfulMonad m] {x : ParkedM σ ε m (Option ρ)} {y : StateT σ (ExceptT ε m) (Option ρ)}

theorem parks_pure (r : Option ρ) :
    Parks (pure r : ParkedM σ ε m (Option ρ)) (pure r) := fun s => by
  change finish <$> pure (r, s, none) = _
  rw [map_pure]
  rfl

theorem parks_guard {c : Bool} (h : Parks x y) :
    Parks (Pattern.guardM c x) (Pattern.guardM c y) := by
  cases c with
  | true => exact h
  | false => exact parks_pure none

theorem parks_unlessStopped (h : Parks x y) : Parks (unlessStopped x) y := fun s => by
  have hrun : (unlessStopped x).run (s, none) = x.run (s, none) := by
    simp [unlessStopped]
  rw [hrun]
  exact h s

theorem parks_trying {a : StateT σ (ExceptT ε m) α} {f : α → ParkedM σ ε m (Option ρ)}
    {g : α → StateT σ (ExceptT ε m) (Option ρ)} (h : ∀ v, Parks (f v) (g v)) :
    Parks (trying a f) (a >>= g) := fun s => by
  have hrun : ((a >>= g).run s).run = (a.run s).run >>= fun result =>
      match result with
      | .ok (v, s') => ((g v).run s').run
      | .error e => pure (.error e) := by
    rw [StateT.run_bind, ExceptT.run_bind]
    refine bind_congr fun result => ?_
    rcases result with e | ⟨v, s'⟩ <;> rfl
  rw [hrun]
  change finish <$> ((a.run s).run >>= _) = _
  rw [map_bind]
  refine bind_congr fun result => ?_
  rcases result with e | ⟨v, s'⟩
  · exact map_pure _ _
  · exact h v s'

theorem parks_orElse {x : ParkedM σ ε m (Option α)} {x' : StateT σ (ExceptT ε m) (Option α)}
    {y : ParkedM σ ε m (Option ρ)} {f : α → Option ρ}
    {g : Option α → StateT σ (ExceptT ε m) (Option ρ)} (hx : Parks x x')
    (hsome : ∀ a, g (some a) = pure (f a)) (hnone : Parks y (g none)) :
    Parks (orElse x f y) (x' >>= g) := fun s => by
  rw [StateT.run_bind, ExceptT.run_bind, ← hx s, bind_map_left, orElse, StateT.run_bind, map_bind]
  refine bind_congr fun result => ?_
  rcases result with ⟨a, s', parked⟩
  cases parked with
  | some e => cases a <;> simp [unlessStopped, finish]
  | none =>
      cases a with
      | some a =>
          have hpure := parks_pure (m := m) (ε := ε) (f a) s'
          rw [← hsome a] at hpure
          exact hpure
      | none => exact parks_unlessStopped hnone s'

theorem parks_firstOf {f : α → ParkedM σ ε m (Option ρ)}
    {g : α → StateT σ (ExceptT ε m) (Option ρ)} (h : ∀ a, Parks (f a) (g a)) (xs : List α) :
    Parks (firstOf f xs) (xs.findSomeM? g) := by
  induction xs with
  | nil => exact parks_pure none
  | cons x xs ih =>
      rw [List.findSomeM?_cons]
      exact parks_orElse (h x) (fun _ => rfl) ih

theorem parks_choose {count : Nat} {xs : List α}
    {k : List α → List α → ParkedM σ ε m (Option ρ)}
    {k' : List α → List α → StateT σ (ExceptT ε m) (Option ρ)}
    (h : ∀ taken left, Parks (k taken left) (k' taken left)) :
    Parks (choose count xs k) (chooseM count xs k') := by
  induction xs generalizing count k k' with
  | nil =>
      cases count with
      | zero => exact h [] []
      | succ count => exact parks_pure none
  | cons x xs ih =>
      cases count with
      | zero => exact h [] (x :: xs)
      | succ count =>
          exact parks_orElse (ih fun taken left => h _ _) (fun _ => rfl)
            (ih fun taken left => h _ _)

end ParkedM

namespace Pattern

variable [LawfulMonad m] {env : Surroundings (StateT σ (ExceptT ε m))}

theorem parks_searchRepeated {size : Bindings → Size}
    {one : Term → Bindings → (Bindings → ParkedM σ ε m (Option ρ)) → ParkedM σ ε m (Option ρ)}
    {one' : Term → Bindings → (Bindings → StateT σ (ExceptT ε m) (Option ρ)) →
      StateT σ (ExceptT ε m) (Option ρ)} {least most : Nat}
    {k : Bindings → ParkedM σ ε m (Option ρ)} {k' : Bindings → StateT σ (ExceptT ε m) (Option ρ)}
    (hk : ∀ b, (k b).Parks (k' b))
    (hone : ∀ {t b k k'}, (∀ b, (k b).Parks (k' b)) → (one t b k).Parks (one' t b k'))
    (bound : Nat) {items : List Term} {count : Nat} {b : Bindings} :
    (searchRepeatedParked env size one least most k bound items count b).Parks
      (searchRepeated env size one' least most k' bound items count b) := by
  induction bound generalizing items count b with
  | zero =>
      cases items with
      | nil => exact ParkedM.parks_guard (hk b)
      | cons item rest => exact ParkedM.parks_pure none
  | succ bound ih =>
      cases items with
      | nil => exact ParkedM.parks_guard (hk b)
      | cons item rest =>
          rw [searchRepeatedParked, searchRepeated]
          by_cases hmost : most ≤ count
          · rw [if_pos hmost, if_pos hmost]
            exact ParkedM.parks_pure none
          rw [if_neg hmost, if_neg hmost]
          refine ParkedM.parks_firstOf (fun n => ParkedM.parks_trying fun value => ?_) _
          exact hone fun b => ih

mutual

/-- A search that parks its errors does what the search does. -/
theorem parks_search (env : Surroundings (StateT σ (ExceptT ε m))) :
    ∀ (p : Pattern) {ρ : Type} {t : Term} {b : Bindings} {k : Bindings → ParkedM σ ε m (Option ρ)}
      {k' : Bindings → StateT σ (ExceptT ε m) (Option ρ)}, (∀ b, (k b).Parks (k' b)) →
      (p.searchParked env ρ t b k).Parks (p.search env ρ t b k')
  | atom a, ρ, t, b, k, k', hk | literal a, ρ, t, b, k, k', hk | blank type, ρ, t, b, k, k', hk
  | blankSequence type, ρ, t, b, k, k', hk | blankNullSequence type, ρ, t, b, k, k', hk => by
      rw [searchParked, search]
      exact ParkedM.parks_unlessStopped <| ParkedM.parks_trying fun _ =>
        ParkedM.parks_guard (hk b)
  | named name p, ρ, t, b, k, k', hk => by
      rw [searchParked, search]
      refine ParkedM.parks_unlessStopped <| ParkedM.parks_trying fun _ => ?_
      cases b.get? name with
      | some value => exact ParkedM.parks_guard (parks_search env p hk)
      | none => exact parks_search env p hk
  | condition p test, ρ, t, b, k, k', hk => by
      rw [searchParked, search]
      refine ParkedM.parks_unlessStopped <| ParkedM.parks_trying fun _ => ?_
      exact parks_search env p fun b => ParkedM.parks_trying fun c => ParkedM.parks_guard (hk b)
  | tested p f, ρ, t, b, k, k', hk => by
      rw [searchParked, search]
      refine ParkedM.parks_unlessStopped <| ParkedM.parks_trying fun _ => ?_
      exact parks_search env p fun b => ParkedM.parks_trying fun c => ParkedM.parks_guard (hk b)
  | alternatives choices, ρ, t, b, k, k', hk => by
      rw [searchParked, search]
      exact ParkedM.parks_unlessStopped <| ParkedM.parks_trying fun _ =>
        parks_searchChoices env choices hk
  | repeated p _ least most, ρ, t, b, k, k', hk => by
      rw [searchParked, search]
      refine ParkedM.parks_unlessStopped <| ParkedM.parks_trying fun _ => ?_
      refine parks_searchRepeated hk ?_ _
      exact fun hk => parks_search env p hk
  | optional p (some d), ρ, t, b, k, k', hk | optional p none, ρ, t, b, k, k', hk => by
      rw [searchParked, search]
      refine ParkedM.parks_unlessStopped <| ParkedM.parks_trying fun _ => ?_
      split
      · refine ParkedM.parks_trying fun d => ?_
        cases d with
        | some d => exact parks_search env p hk
        | none => exact ParkedM.parks_pure none
      · exact parks_search env p hk
  | hold p, ρ, t, b, k, k', hk | longest p, ρ, t, b, k, k', hk
  | shortest p, ρ, t, b, k, k', hk => by
      rw [searchParked, search]
      exact ParkedM.parks_unlessStopped <| ParkedM.parks_trying fun _ => parks_search env p hk
  | sequence parts, ρ, t, b, k, k', hk => by
      rw [searchParked, search]
      exact ParkedM.parks_unlessStopped <| ParkedM.parks_trying fun _ =>
        parks_searchSlots env parts fun b rest => ParkedM.parks_guard (hk b)
  | except no, ρ, t, b, k, k', hk => by
      rw [searchParked, search]
      refine ParkedM.parks_unlessStopped <| ParkedM.parks_trying fun _ => ?_
      exact ParkedM.parks_orElse (parks_search env no fun _ => ParkedM.parks_pure (some ()))
        (fun _ => rfl) (ParkedM.parks_guard (hk b))
  | exceptThen no p, ρ, t, b, k, k', hk => by
      rw [searchParked, search]
      refine ParkedM.parks_unlessStopped <| ParkedM.parks_trying fun _ => ?_
      exact ParkedM.parks_orElse (parks_search env no fun _ => ParkedM.parks_pure (some ()))
        (fun _ => rfl) (parks_search env p hk)
  | call whole head args, ρ, t, b, k, k', hk => by
      rw [searchParked, search]
      refine ParkedM.parks_unlessStopped <| ParkedM.parks_trying fun _ => ?_
      cases t.single? with
      | none => exact ParkedM.parks_pure none
      | some subject =>
          refine ParkedM.parks_trying fun attrs => ?_
          cases whole.isLiteral attrs with
          | true => exact ParkedM.parks_guard (hk b)
          | false =>
              rw [if_neg Bool.false_ne_true, if_neg Bool.false_ne_true]
              cases subject with
              | node i f xs =>
                  refine parks_search env head fun b => ParkedM.parks_trying fun a => ?_
                  dsimp only
                  split
                  · exact ParkedM.parks_pure none
                  · split
                    · exact parks_searchAnywhere env args fun b free => ParkedM.parks_guard (hk b)
                    · exact parks_searchSlots env args fun b rest => ParkedM.parks_guard (hk b)
              | _ => exact ParkedM.parks_pure none

theorem parks_searchChoices (env : Surroundings (StateT σ (ExceptT ε m))) :
    ∀ (ps : List Pattern) {ρ : Type} {t : Term} {b : Bindings}
      {k : Bindings → ParkedM σ ε m (Option ρ)}
      {k' : Bindings → StateT σ (ExceptT ε m) (Option ρ)}, (∀ b, (k b).Parks (k' b)) →
      (searchChoicesParked env ps ρ t b k).Parks (searchChoices env ps ρ t b k')
  | [], ρ, t, b, k, k', hk => by
      rw [searchChoicesParked, searchChoices]
      exact ParkedM.parks_pure none
  | p :: ps, ρ, t, b, k, k', hk => by
      rw [searchChoicesParked, searchChoices]
      exact ParkedM.parks_orElse (parks_search env p hk) (fun _ => rfl)
        (parks_searchChoices env ps hk)

theorem parks_searchSlots (env : Surroundings (StateT σ (ExceptT ε m))) :
    ∀ (ps : List Pattern) {ρ : Type} {flat : Option Term} {head : Term} {count index : Nat}
      {args : List Term} {b : Bindings} {k : Bindings → List Term → ParkedM σ ε m (Option ρ)}
      {k' : Bindings → List Term → StateT σ (ExceptT ε m) (Option ρ)},
      (∀ b rest, (k b rest).Parks (k' b rest)) →
      (searchSlotsParked env ps ρ flat head count index args b k).Parks
        (searchSlots env ps ρ flat head count index args b k')
  | [], ρ, flat, head, count, index, args, b, k, k', hk => by
      rw [searchSlotsParked, searchSlots]
      exact hk b args
  | p :: ps, ρ, flat, head, count, index, args, b, k, k', hk => by
      rw [searchSlotsParked, searchSlots]
      refine ParkedM.parks_firstOf (fun n => ParkedM.parks_trying fun value =>
        ParkedM.parks_trying fun _ => ?_) _
      exact parks_search env p fun b => parks_searchSlots env ps hk

theorem parks_searchAnywhere (env : Surroundings (StateT σ (ExceptT ε m))) :
    ∀ (ps : List Pattern) {ρ : Type} {flat : Option Term} {head : Term} {count index : Nat}
      {free : List (Term × Nat)} {b : Bindings}
      {k : Bindings → List (Term × Nat) → ParkedM σ ε m (Option ρ)}
      {k' : Bindings → List (Term × Nat) → StateT σ (ExceptT ε m) (Option ρ)},
      (∀ b left, (k b left).Parks (k' b left)) →
      (searchAnywhereParked env ps ρ flat head count index free b k).Parks
        (searchAnywhere env ps ρ flat head count index free b k')
  | [], ρ, flat, head, count, index, free, b, k, k', hk => by
      rw [searchAnywhereParked, searchAnywhere]
      exact hk b free
  | p :: ps, ρ, flat, head, count, index, free, b, k, k', hk => by
      rw [searchAnywhereParked, searchAnywhere]
      refine ParkedM.parks_firstOf (fun n => ParkedM.parks_choose fun taken left =>
        ParkedM.parks_trying fun value => ParkedM.parks_trying fun _ => ?_) _
      exact parks_search env p fun b => parks_searchAnywhere env ps hk

end

end Pattern

namespace Rule

variable [LawfulMonad m] (env : Surroundings (StateT σ (ExceptT ε m)))

theorem parks_applyInside (head : Pattern) (slots : List Pattern) (rhs : Term) (orderless : Bool)
    (f : Term) (args : List Term) :
    (applyInsideParked env head slots rhs orderless f args).Parks
      (applyInside env head slots rhs orderless f args) := by
  unfold applyInsideParked applyInside
  split
  · refine Pattern.parks_search env head fun b => Pattern.parks_searchAnywhere env slots ?_
    exact fun b free => ParkedM.parks_trying fun result => ParkedM.parks_pure _
  · refine ParkedM.parks_firstOf (fun start => Pattern.parks_search env head fun b =>
      Pattern.parks_searchSlots env slots ?_) _
    exact fun b rest => ParkedM.parks_trying fun result => ParkedM.parks_pure _

/-- A rewriting that parks its errors does what the rewriting does. -/
theorem parks_rewrite (lhs rhs subject : Term) :
    (rewriteParked env lhs rhs subject).Parks (rewrite env lhs rhs subject) := by
  have hinstantiate (b : Bindings) :
      ParkedM.Parks (.trying (instantiate env rhs b) pure) (instantiate env rhs b) := by
    have htrying := ParkedM.parks_trying (a := instantiate env rhs b) ParkedM.parks_pure
    rwa [bind_pure] at htrying
  refine ParkedM.parks_orElse (Pattern.parks_search env _ hinstantiate) (fun _ => rfl) ?_
  dsimp only
  cases (Pattern.ofTerm lhs).unheld with
  | call whole head slots =>
      cases subject with
      | node id f args =>
          cases f with
          | symbol s =>
              refine ParkedM.parks_trying fun attrs => ?_
              split
              · exact parks_applyInside env _ _ _ _ _ _
              · exact ParkedM.parks_pure none
          | _ => exact ParkedM.parks_pure none
      | _ => exact ParkedM.parks_pure none
  | _ => exact ParkedM.parks_pure none

end Rule

end Termwise
