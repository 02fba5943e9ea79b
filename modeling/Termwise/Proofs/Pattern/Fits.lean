import Termwise.Proofs.Pattern.Growth
import Termwise.Proofs.Pattern.Observation

/-!
# Termwise.Proofs.Pattern.Fits

What a search has found when it goes on, whatever evaluation does.  A pattern is read
as a relation between a term, the bindings before and the bindings after
(`Pattern.Fits`); tests, attributes, implicit defaults and failed searches may come
out differently every time they are asked for, and count as met if they can come out so
(`Outcomes`).

`sound_search` is a rule for searches as programs: to show something of every result of a
search, show it of what the rest of the match makes of bindings that fit.  The slots
of a call have then taken a front part of its arguments, or, for an orderless head, any
of them, exactly.
-/

namespace Termwise

/-- What a search may meet with outside. -/
structure Outcomes where
  /-- Symbols may have these attributes. -/
  attributes : (Symbol → Attributes) → Prop
  /-- A test may evaluate to the true truth value. -/
  holds : Term → Prop
  /-- An argument that was left out may have this default. -/
  default : Term → Prop
  /-- A search under some bindings may find nothing. -/
  misses : Pattern → Term → Bindings → Prop

namespace Pattern

/-! ## repetitions -/

/-- Items are consecutive repetitions of a pattern, given by what it fits and its size, when `count`
repetitions have been read before. -/
inductive Repeats (size : Bindings → Size) (one : Term → Bindings → Bindings → Prop)
    (least most : Nat) : List Term → Nat → Bindings → Bindings → Prop
  | done {count : Nat} {b : Bindings} : least ≤ count → Repeats size one least most [] count b b
  | step {items : List Term} {count n : Nat} {b b₁ b' : Bindings} {value : Term} :
      count < most → n ∈ (size b).counts items.length → n ≠ 0 →
      value.strip = ((size b).value none (items.take n)).strip → one value b b₁ →
      Repeats size one least most (items.drop n) (count + 1) b₁ b' →
      Repeats size one least most items count b b'

/-! ## fits -/

mutual

/-- Whether a pattern may match a term, from some bindings to others. -/
def Fits (w : Outcomes) : Pattern → Term → Bindings → Bindings → Prop
  | atom a, t, b, b' | literal a, t, b, b' => t.single?.any (· == a) = true ∧ b' = b
  | blank type, t, b, b' => t.single?.any (Term.hasType type) = true ∧ b' = b
  | blankSequence type, t, b, b' =>
    t.run ≠ [] ∧ t.run.all (Term.hasType type) = true ∧ b' = b
  | blankNullSequence type, t, b, b' => t.run.all (Term.hasType type) = true ∧ b' = b
  | named name p, t, b, b' =>
    match b.get? name with
    | some value => (value == t) = true ∧ p.Fits w t b b'
    | none => p.Fits w t (b.push name t) b'
  | condition p test, t, b, b' => p.Fits w t b b' ∧ w.holds (test.substitute b')
  | tested p f, t, b, b' => p.Fits w t b b' ∧ w.holds (.call f t.run)
  | alternatives choices, t, b, b' => FitsAny w choices t b b'
  | repeated p _ least most, t, b, b' =>
    Repeats (fun b => p.size none b) (p.Fits w) least most t.run 0 b b'
  | optional p default, t, b, b' =>
    if t.isMarker && t.args.isEmpty then
      match default with
      | some d => p.Fits w d b b'
      | none => ∃ d, w.default d ∧ p.Fits w d b b'
    else p.Fits w t b b'
  | hold p, t, b, b' | longest p, t, b, b' | shortest p, t, b, b' => p.Fits w t b b'
  | sequence parts, t, b, b' => FitsSlots w parts none t.run b b'
  | except no, t, b, b' => w.misses no t b ∧ t.single?.isSome = true ∧ b' = b
  | exceptThen no p, t, b, b' => w.misses no t b ∧ p.Fits w t b b'
  | call whole head args, t, b, b' =>
    ∃ subject, t.single? = some subject ∧
      ((∃ attrs, w.attributes attrs ∧ whole.isLiteral attrs = true ∧ (whole == subject) = true ∧
          b' = b) ∨
        ∃ attrs, w.attributes attrs ∧ whole.isLiteral attrs = false ∧
          ∃ i f xs b₁, subject = .node i f xs ∧ head.Fits w f b b₁ ∧
            ∃ attrs', w.attributes attrs' ∧
              let its := subject.headAttributes attrs'
              let flat := if its.has .flat then some f else none
              if its.has .orderless then FitsAnywhere w args flat xs b₁ b'
              else FitsSlots w args flat xs b₁ b')

/-- Whether one of several patterns may match a term. -/
def FitsAny (w : Outcomes) : List Pattern → Term → Bindings → Bindings → Prop
  | [], _, _, _ => False
  | p :: ps, t, b, b' => p.Fits w t b b' ∨ FitsAny w ps t b b'

/-- Whether slots may take exactly these arguments, from left to right. -/
def FitsSlots (w : Outcomes) :
    List Pattern → Option Term → List Term → Bindings → Bindings → Prop
  | [], _, args, b, b' => args = [] ∧ b' = b
  | p :: ps, flat, args, b, b' =>
    ∃ n ∈ (p.size flat b).counts args.length, ∃ value b₁,
      value.strip = ((p.size flat b).value flat (args.take n)).strip ∧ p.Fits w value b b₁ ∧
        FitsSlots w ps flat (args.drop n) b₁ b'

/-- Whether slots may take exactly these arguments, each slot any of them. -/
def FitsAnywhere (w : Outcomes) :
    List Pattern → Option Term → List Term → Bindings → Bindings → Prop
  | [], _, args, b, b' => args = [] ∧ b' = b
  | p :: ps, flat, args, b, b' =>
    ∃ n ∈ (p.size flat b).counts args.length, ∃ taken left, (taken, left) ∈ choices n args ∧
      ∃ value b₁, value.strip = ((p.size flat b).value flat taken).strip ∧ p.Fits w value b b₁ ∧
        FitsAnywhere w ps flat left b₁ b'

end

end Pattern

/-! ## answers of searches -/

namespace Observation

variable {m : Type → Type} [Monad m] (o : Observation m) {ρ : Type} {Q : ρ → Prop}

/-- Whatever answer a search has satisfies a condition. -/
def Yields {ρ : Type} (x : m (Option ρ)) (Q : ρ → Prop) : Prop :=
  o.Gives x fun r => ∀ a, r = some a → Q a

variable {o}

theorem yields_none : o.Yields (pure none) Q := o.gives_pure fun _ h => by cases h

theorem yields_some {a : ρ} (h : Q a) : o.Yields (pure (some a)) Q :=
  o.gives_pure fun _ ha => by cases ha; exact h

theorem yields_guard {c : Bool} {k : m (Option ρ)} (hk : c = true → o.Yields k Q) :
    o.Yields (Pattern.guardM c k) Q := by
  cases c with
  | true => exact hk rfl
  | false => exact yields_none

theorem yields_or {x y : m (Option ρ)} (hx : o.Yields x Q) (hy : o.Yields y Q) :
    o.Yields (do match ← x with | some r => pure (some r) | none => y) Q := by
  refine o.gives_bind hx fun r hr => ?_
  cases r with
  | some a => exact yields_some (hr a rfl)
  | none => exact hy

theorem yields_findSomeM? {α : Type} {f : α → m (Option ρ)} {xs : List α}
    (h : ∀ x ∈ xs, o.Yields (f x) Q) : o.Yields (xs.findSomeM? f) Q := by
  induction xs with
  | nil => exact yields_none
  | cons x xs ih =>
      rw [List.findSomeM?_cons]
      exact yields_or (h x List.mem_cons_self) (ih fun y hy => h y (List.mem_cons_of_mem _ hy))

theorem yields_chooseM {α : Type} {n : Nat} {xs : List α} {k : List α → List α → m (Option ρ)}
    (h : ∀ taken left, (taken, left) ∈ choices n xs → o.Yields (k taken left) Q) :
    o.Yields (chooseM n xs k) Q := by
  induction xs generalizing n k with
  | nil =>
      cases n with
      | zero => exact h [] [] List.mem_cons_self
      | succ n => exact yields_none
  | cons x xs ih =>
      cases n with
      | zero => exact h [] (x :: xs) List.mem_cons_self
      | succ n =>
          refine yields_or (ih fun taken left hc => h _ _ ?_) (ih fun taken left hc => h _ _ ?_)
          · exact List.mem_append_left _ (List.mem_map.mpr ⟨(taken, left), hc, rfl⟩)
          · exact List.mem_append_right _ (List.mem_map.mpr ⟨(taken, left), hc, rfl⟩)

end Observation

/-- Surroundings in which a search meets given outcomes only. -/
structure Surroundings.Meets {m : Type → Type} [Monad m] (env : Surroundings m)
    (o : Observation m) (w : Outcomes) : Prop where
  tick : o.Gives env.tick fun _ => True
  attributes : o.Gives env.attributes w.attributes
  share : ∀ t, o.Gives (env.share t) fun s => s.strip = t.strip
  enter : ∀ slot, o.Gives (env.enter slot) fun _ => True
  evaluate : ∀ t, o.Gives (env.evaluate t) fun v => v.isSymbol .isTrue = true → w.holds t
  default? : o.Yields env.default? w.default
  misses : ∀ p t b,
    (o.Gives (Pattern.search env p Unit t b fun _ => pure (some ())) fun _ => True) →
    o.Gives (Pattern.search env p Unit t b fun _ => pure (some ())) fun r =>
      r = none → w.misses p t b

/-! ## parts of arguments -/

section Choices

variable {α : Type} {n m : Nat} {x : α} {xs taken left used rest : List α}

theorem mem_choices_zero : (taken, left) ∈ choices 0 xs ↔ taken = [] ∧ left = xs := by
  rw [choices, List.mem_singleton, Prod.mk.injEq]

/-- The first item is taken or left. -/
theorem mem_choices_cons : (taken, left) ∈ choices (n + 1) (x :: xs) ↔
    (∃ more, taken = x :: more ∧ (more, left) ∈ choices n xs) ∨
      ∃ more, left = x :: more ∧ (taken, more) ∈ choices (n + 1) xs := by
  simp only [choices, List.mem_append, List.mem_map, Prod.mk.injEq, Prod.exists]
  constructor
  · rintro (⟨a, b, h, rfl, rfl⟩ | ⟨a, b, h, rfl, rfl⟩)
    · exact .inl ⟨a, rfl, h⟩
    · exact .inr ⟨b, rfl, h⟩
  · rintro (⟨more, rfl, h⟩ | ⟨more, rfl, h⟩)
    · exact .inl ⟨more, left, h, rfl, rfl⟩
    · exact .inr ⟨taken, more, h, rfl, rfl⟩

theorem mem_choices_all (xs : List α) : (xs, []) ∈ choices xs.length xs := by
  induction xs with
  | nil => exact List.mem_cons_self
  | cons x xs ih => exact mem_choices_cons.mpr (.inl ⟨xs, rfl, ih⟩)

/-- A choice that leaves nothing takes all. -/
theorem eq_of_mem_choices_nil (h : (taken, []) ∈ choices n xs) : taken = xs := by
  induction xs generalizing n taken with
  | nil =>
      cases n with
      | zero => exact (mem_choices_zero.mp h).1
      | succ n => cases h
  | cons x xs ih =>
      cases n with
      | zero => cases (mem_choices_zero.mp h).2
      | succ n =>
          obtain ⟨more, rfl, hmore⟩ | ⟨more, hnil, -⟩ := mem_choices_cons.mp h
          · rw [ih hmore]
          · cases hnil

/-- A choice from what another one leaves: both are a choice, of which the first one is a choice. -/
theorem exists_choice_of_left (h : (taken, left) ∈ choices n xs)
    (h' : (used, rest) ∈ choices m left) :
    ∃ both, (both, rest) ∈ choices (n + m) xs ∧ (taken, used) ∈ choices n both := by
  induction xs generalizing n m taken left used rest with
  | nil =>
      cases n with
      | zero =>
          obtain ⟨rfl, rfl⟩ := mem_choices_zero.mp h
          exact ⟨used, by rwa [Nat.zero_add], mem_choices_zero.mpr ⟨rfl, rfl⟩⟩
      | succ n => cases h
  | cons x xs ih =>
      cases n with
      | zero =>
          obtain ⟨rfl, rfl⟩ := mem_choices_zero.mp h
          exact ⟨used, by rwa [Nat.zero_add], mem_choices_zero.mpr ⟨rfl, rfl⟩⟩
      | succ n =>
          obtain ⟨more, rfl, hmore⟩ | ⟨more, rfl, hmore⟩ := mem_choices_cons.mp h
          · obtain ⟨both, hboth, hpart⟩ := ih hmore h'
            refine ⟨x :: both, ?_, mem_choices_cons.mpr (.inl ⟨more, rfl, hpart⟩)⟩
            rw [Nat.add_right_comm]
            exact mem_choices_cons.mpr (.inl ⟨both, rfl, hboth⟩)
          · cases m with
            | zero =>
                obtain ⟨rfl, rfl⟩ := mem_choices_zero.mp h'
                have hall := mem_choices_all taken
                rw [(mem_choices hmore).1] at hall
                exact ⟨taken, h, hall⟩
            | succ m =>
                obtain ⟨more', rfl, hmore'⟩ | ⟨more', rfl, hmore'⟩ := mem_choices_cons.mp h'
                · obtain ⟨both, hboth, hpart⟩ := ih hmore hmore'
                  exact ⟨x :: both, mem_choices_cons.mpr (.inl ⟨both, rfl, hboth⟩),
                    mem_choices_cons.mpr (.inr ⟨more', rfl, hpart⟩)⟩
                · obtain ⟨both, hboth, hpart⟩ := ih hmore hmore'
                  exact ⟨both, mem_choices_cons.mpr (.inr ⟨more', rfl, hboth⟩), hpart⟩

/-- A choice looks like the same choice from what the list looks like. -/
theorem mem_choices_map {β : Type} (f : α → β) (h : (taken, left) ∈ choices n xs) :
    (taken.map f, left.map f) ∈ choices n (xs.map f) := by
  induction xs generalizing n taken left with
  | nil =>
      cases n with
      | zero =>
          obtain ⟨rfl, rfl⟩ := mem_choices_zero.mp h
          exact List.mem_cons_self
      | succ n => cases h
  | cons x xs ih =>
      cases n with
      | zero =>
          obtain ⟨rfl, rfl⟩ := mem_choices_zero.mp h
          exact mem_choices_zero.mpr ⟨rfl, rfl⟩
      | succ n =>
          obtain ⟨more, rfl, hmore⟩ | ⟨more, rfl, hmore⟩ := mem_choices_cons.mp h
          · exact mem_choices_cons.mpr (.inl ⟨more.map f, rfl, ih hmore⟩)
          · exact mem_choices_cons.mpr (.inr ⟨more.map f, rfl, ih hmore⟩)

end Choices

namespace Pattern

variable {m : Type → Type} [Monad m] {env : Surroundings m} {o : Observation m} {w : Outcomes}
  {ρ : Type} {Q : ρ → Prop}

/-- Where arguments suffice for a slot that takes some of more, it may take them. -/
theorem mem_counts_of_le {s : Size} {n available available' : Nat} (h : n ∈ s.counts available)
    (hle : n ≤ available') : n ∈ s.counts available' := by
  rw [Size.mem_counts] at *
  exact ⟨h.1, h.2.1, hle⟩

/-! ## soundness -/

theorem yields_holds (hw : env.Meets o w) {b : Bindings} {test : Term} {k : m (Option ρ)}
    (hk : w.holds (test.substitute b) → o.Yields k Q) :
    o.Yields (do guardM (← holds env b test) k) Q := by
  refine o.gives_bind (o.gives_bind (hw.evaluate (test.substitute b)) fun v hv =>
    o.gives_pure (p := fun c => c = true → w.holds (test.substitute b)) hv) fun c hc => ?_
  exact Observation.yields_guard fun h => hk (hc h)

theorem yields_accepts (hw : env.Meets o w) {f t : Term} {k : m (Option ρ)}
    (hk : w.holds (.call f t.run) → o.Yields k Q) :
    o.Yields (do guardM (← accepts env f t) k) Q := by
  refine o.gives_bind (o.gives_bind (hw.evaluate (.call f t.run)) fun v hv =>
    o.gives_pure (p := fun c => c = true → w.holds (.call f t.run)) hv) fun c hc => ?_
  exact Observation.yields_guard fun h => hk (hc h)

/-- Repetitions that a search reads are repetitions. -/
theorem sound_searchRepeated (hw : env.Meets o w) {size : Bindings → Size}
    {one : Term → Bindings → (Bindings → m (Option ρ)) → m (Option ρ)}
    {fits : Term → Bindings → Bindings → Prop} {least most : Nat}
    (hone : ∀ {t b k}, (∀ b', fits t b b' → o.Yields (k b') Q) → o.Yields (one t b k) Q)
    {k : Bindings → m (Option ρ)} (bound : Nat) {items : List Term} {count : Nat} {b : Bindings}
    (hk : ∀ b', Repeats size fits least most items count b b' → o.Yields (k b') Q) :
    o.Yields (searchRepeated env size one least most k bound items count b) Q := by
  induction bound generalizing items count b with
  | zero =>
      cases items with
      | nil => exact Observation.yields_guard fun h => hk b (.done (by simpa using h))
      | cons item rest => exact Observation.yields_none
  | succ bound ih =>
      cases items with
      | nil => exact Observation.yields_guard fun h => hk b (.done (by simpa using h))
      | cons item rest =>
          rw [searchRepeated]
          by_cases hmost : most ≤ count
          · rw [if_pos hmost]
            exact Observation.yields_none
          rw [if_neg hmost]
          refine Observation.yields_findSomeM? fun n hn => ?_
          obtain ⟨hn, hzero⟩ := List.mem_filter.mp hn
          refine o.gives_bind (hw.share _) fun value hvalue => hone fun b₁ hb₁ => ?_
          refine ih fun b' hb' => ?_
          exact hk b' (.step (by omega) hn (by simpa using hzero) hvalue hb₁ hb')

/-- The arguments of a call, once its head is matched. -/
theorem yields_args {args : List Pattern} {its : Attributes} {f : Term} {xs : List Term}
    {b : Bindings} {k : Bindings → m (Option ρ)}
    (hslots : ∀ {flat : Option Term} {head : Term} {count index : Nat}
      {k : Bindings → List Term → m (Option ρ)},
      (∀ b' used rest, xs = used ++ rest → FitsSlots w args flat used b b' →
        o.Yields (k b' rest) Q) →
      o.Yields (searchSlots env args ρ flat head count index xs b k) Q)
    (hanywhere : ∀ {flat : Option Term} {head : Term} {count index : Nat}
      {k : Bindings → List (Term × Nat) → m (Option ρ)},
      (∀ b' used left, (used, left) ∈ choices used.length xs.zipIdx →
        FitsAnywhere w args flat (used.map (·.1)) b b' → o.Yields (k b' left) Q) →
      o.Yields (searchAnywhere env args ρ flat head count index xs.zipIdx b k) Q)
    (hk : ∀ b', (if its.has .orderless
        then FitsAnywhere w args (if its.has .flat then some f else none) xs b b'
        else FitsSlots w args (if its.has .flat then some f else none) xs b b') →
      o.Yields (k b') Q) :
    o.Yields
      (let flat := if its.has .flat then some f else none
      let (least, most) := totalRange args b
      if !its.has .flat && (xs.length < least || most < xs.length) then pure none
      else if its.has .orderless then
        searchAnywhere env args ρ flat f args.length 1 xs.zipIdx b
          fun b free => guardM free.isEmpty (k b)
      else
        searchSlots env args ρ flat f args.length 1 xs b
          fun b rest => guardM rest.isEmpty (k b)) Q := by
  dsimp only
  split
  · exact Observation.yields_none
  · split
    · rename_i horderless
      refine hanywhere fun b' used left hused hb' => Observation.yields_guard fun h => hk b' ?_
      rw [List.isEmpty_iff] at h
      subst h
      rw [eq_of_mem_choices_nil hused, List.zipIdx_map_fst] at hb'
      rwa [if_pos horderless]
    · rename_i horderless
      refine hslots fun b' used rest hsplit hb' => Observation.yields_guard fun h => hk b' ?_
      rw [List.isEmpty_iff] at h
      rw [h, List.append_nil] at hsplit
      rwa [if_neg horderless, hsplit]

mutual

/-- A search goes on with bindings that fit. -/
theorem sound_search (hw : env.Meets o w) : ∀ (p : Pattern) {ρ : Type} {Q : ρ → Prop} {t : Term}
    {b : Bindings} {k : Bindings → m (Option ρ)}, (∀ b', p.Fits w t b b' → o.Yields (k b') Q) →
    o.Yields (p.search env ρ t b k) Q
  | atom a, ρ, Q, t, b, k, hk | literal a, ρ, Q, t, b, k, hk => by
      rw [search]
      exact o.gives_bind hw.tick fun _ _ => Observation.yields_guard fun h => hk b ⟨h, rfl⟩
  | blank type, ρ, Q, t, b, k, hk => by
      rw [search]
      exact o.gives_bind hw.tick fun _ _ => Observation.yields_guard fun h => hk b ⟨h, rfl⟩
  | blankSequence type, ρ, Q, t, b, k, hk => by
      rw [search]
      refine o.gives_bind hw.tick fun _ _ => Observation.yields_guard fun h => hk b ?_
      rw [Bool.and_eq_true] at h
      exact ⟨by simpa using h.1, h.2, rfl⟩
  | blankNullSequence type, ρ, Q, t, b, k, hk => by
      rw [search]
      exact o.gives_bind hw.tick fun _ _ => Observation.yields_guard fun h => hk b ⟨h, rfl⟩
  | named name p, ρ, Q, t, b, k, hk => by
      rw [search]
      refine o.gives_bind hw.tick fun _ _ => ?_
      split
      · rename_i value hvalue
        refine Observation.yields_guard fun h => sound_search hw p fun b' hb' => hk b' ?_
        rw [Fits, hvalue]
        exact ⟨h, hb'⟩
      · rename_i hvalue
        refine sound_search hw p fun b' hb' => hk b' ?_
        rw [Fits, hvalue]
        exact hb'
  | condition p test, ρ, Q, t, b, k, hk => by
      rw [search]
      exact o.gives_bind hw.tick fun _ _ => sound_search hw p fun b' hb' =>
        yields_holds hw fun h => hk b' ⟨hb', h⟩
  | tested p f, ρ, Q, t, b, k, hk => by
      rw [search]
      exact o.gives_bind hw.tick fun _ _ => sound_search hw p fun b' hb' =>
        yields_accepts hw fun h => hk b' ⟨hb', h⟩
  | alternatives choices, ρ, Q, t, b, k, hk => by
      rw [search]
      exact o.gives_bind hw.tick fun _ _ => sound_searchChoices hw choices hk
  | repeated p _ least most, ρ, Q, t, b, k, hk => by
      rw [search]
      exact o.gives_bind hw.tick fun _ _ => sound_searchRepeated hw (sound_search hw p) _ hk
  | optional p default, ρ, Q, t, b, k, hk => by
      by_cases hempty : (t.isMarker && t.args.isEmpty) = true
      · cases default with
        | some d =>
            rw [search, if_pos hempty]
            refine o.gives_bind hw.tick fun _ _ => ?_
            refine o.gives_bind (o.gives_pure (p := (· = some d)) rfl) fun r hr => ?_
            subst hr
            refine sound_search hw p fun b' hb' => hk b' ?_
            rwa [Fits, if_pos hempty]
        | none =>
            rw [search, if_pos hempty]
            refine o.gives_bind hw.tick fun _ _ => o.gives_bind hw.default? fun r hr => ?_
            cases r with
            | none => exact Observation.yields_none
            | some d =>
                refine sound_search hw p fun b' hb' => hk b' ?_
                rw [Fits, if_pos hempty]
                exact ⟨d, hr d rfl, hb'⟩
      · have hsearch : o.Yields (p.search env ρ t b k) Q := by
          refine sound_search hw p fun b' hb' => hk b' ?_
          cases default <;> rwa [Fits, if_neg hempty]
        cases default with
        | some d =>
            rw [search, if_neg hempty]
            exact o.gives_bind hw.tick fun _ _ => hsearch
        | none =>
            rw [search, if_neg hempty]
            exact o.gives_bind hw.tick fun _ _ => hsearch
  | hold p, ρ, Q, t, b, k, hk | longest p, ρ, Q, t, b, k, hk | shortest p, ρ, Q, t, b, k, hk => by
      rw [search]
      exact o.gives_bind hw.tick fun _ _ => sound_search hw p hk
  | sequence parts, ρ, Q, t, b, k, hk => by
      rw [search]
      refine o.gives_bind hw.tick fun _ _ => ?_
      refine sound_searchSlots hw parts fun b' used rest hsplit hb' => ?_
      refine Observation.yields_guard fun h => hk b' ?_
      rw [List.isEmpty_iff] at h
      rw [h, List.append_nil] at hsplit
      rw [Fits, hsplit]
      exact hb'
  | except no, ρ, Q, t, b, k, hk => by
      rw [search]
      have hno := hw.misses no t b (o.gives_mono (sound_search hw no (Q := fun _ => True) fun _ _ =>
        Observation.yields_some trivial) fun _ _ => trivial)
      refine o.gives_bind hw.tick fun _ _ => o.gives_bind hno fun r hr => ?_
      cases r with
      | some _ => exact Observation.yields_none
      | none => exact Observation.yields_guard fun h => hk b ⟨hr rfl, h, rfl⟩
  | exceptThen no p, ρ, Q, t, b, k, hk => by
      rw [search]
      have hno := hw.misses no t b (o.gives_mono (sound_search hw no (Q := fun _ => True) fun _ _ =>
        Observation.yields_some trivial) fun _ _ => trivial)
      refine o.gives_bind hw.tick fun _ _ => o.gives_bind hno fun r hr => ?_
      cases r with
      | some _ => exact Observation.yields_none
      | none => exact sound_search hw p fun b' hb' => hk b' ⟨hr rfl, hb'⟩
  | call whole head args, ρ, Q, t, b, k, hk => by
      rw [search]
      refine o.gives_bind hw.tick fun _ _ => ?_
      cases ht : t.single? with
      | none => exact Observation.yields_none
      | some subject =>
          refine o.gives_bind hw.attributes fun attrs hattrs => ?_
          cases hwhole : whole.isLiteral attrs with
          | true =>
              rw [if_pos rfl]
              exact Observation.yields_guard fun h =>
                hk b ⟨subject, ht, .inl ⟨attrs, hattrs, hwhole, h, rfl⟩⟩
          | false =>
              rw [if_neg Bool.false_ne_true]
              cases subject with
              | node i f xs =>
                  refine sound_search hw head fun b₁ hb₁ => ?_
                  refine o.gives_bind hw.attributes fun attrs' hattrs' => ?_
                  exact yields_args (sound_searchSlots hw args) (sound_searchAnywhere hw args)
                    fun b' hb' => hk b' ⟨_, ht, .inr ⟨attrs, hattrs, hwhole, i, f, xs, b₁, rfl, hb₁,
                      attrs', hattrs', hb'⟩⟩
              | _ => exact Observation.yields_none

/-- A search through several patterns goes on with bindings that fit one of them. -/
theorem sound_searchChoices (hw : env.Meets o w) : ∀ (ps : List Pattern) {ρ : Type}
    {Q : ρ → Prop} {t : Term} {b : Bindings} {k : Bindings → m (Option ρ)},
    (∀ b', FitsAny w ps t b b' → o.Yields (k b') Q) → o.Yields (searchChoices env ps ρ t b k) Q
  | [], ρ, Q, t, b, k, hk => by
      rw [searchChoices]
      exact Observation.yields_none
  | p :: ps, ρ, Q, t, b, k, hk => by
      rw [searchChoices]
      exact Observation.yields_or (sound_search hw p fun b' hb' => hk b' (.inl hb'))
        (sound_searchChoices hw ps fun b' hb' => hk b' (.inr hb'))

/-- Slots have taken a front part of the arguments. -/
theorem sound_searchSlots (hw : env.Meets o w) : ∀ (ps : List Pattern) {ρ : Type} {Q : ρ → Prop}
    {flat : Option Term} {head : Term} {count index : Nat} {args : List Term} {b : Bindings}
    {k : Bindings → List Term → m (Option ρ)},
    (∀ b' used rest, args = used ++ rest → FitsSlots w ps flat used b b' →
      o.Yields (k b' rest) Q) →
    o.Yields (searchSlots env ps ρ flat head count index args b k) Q
  | [], ρ, Q, flat, head, count, index, args, b, k, hk => by
      rw [searchSlots]
      exact hk b [] args rfl ⟨rfl, rfl⟩
  | p :: ps, ρ, Q, flat, head, count, index, args, b, k, hk => by
      rw [searchSlots]
      refine Observation.yields_findSomeM? fun n hn => ?_
      refine o.gives_bind (hw.share _) fun value hvalue => o.gives_bind (hw.enter _) fun _ _ => ?_
      refine sound_search hw p fun b₁ hb₁ => ?_
      refine sound_searchSlots hw ps fun b' used rest hsplit hb' => ?_
      have hlen : (args.take n).length = n :=
        List.length_take_of_le (Size.mem_counts.mp hn).2.2
      refine hk b' (args.take n ++ used) rest ?_
        ⟨n, mem_counts_of_le hn (by simp [hlen]), value, b₁, ?_, hb₁, ?_⟩
      · rw [List.append_assoc, ← hsplit, List.take_append_drop]
      · rwa [List.take_left' hlen]
      · rwa [List.drop_left' hlen]

/-- Slots have taken some of the arguments. -/
theorem sound_searchAnywhere (hw : env.Meets o w) : ∀ (ps : List Pattern) {ρ : Type} {Q : ρ → Prop}
    {flat : Option Term} {head : Term} {count index : Nat} {free : List (Term × Nat)} {b : Bindings}
    {k : Bindings → List (Term × Nat) → m (Option ρ)},
    (∀ b' used left, (used, left) ∈ choices used.length free →
      FitsAnywhere w ps flat (used.map (·.1)) b b' → o.Yields (k b' left) Q) →
    o.Yields (searchAnywhere env ps ρ flat head count index free b k) Q
  | [], ρ, Q, flat, head, count, index, free, b, k, hk => by
      rw [searchAnywhere]
      exact hk b [] free (mem_choices_zero.mpr ⟨rfl, rfl⟩) ⟨rfl, rfl⟩
  | p :: ps, ρ, Q, flat, head, count, index, free, b, k, hk => by
      rw [searchAnywhere]
      refine Observation.yields_findSomeM? fun n hn => ?_
      refine Observation.yields_chooseM fun taken left hchoice => ?_
      refine o.gives_bind (hw.share _) fun value hvalue => o.gives_bind (hw.enter _) fun _ _ => ?_
      refine sound_search hw p fun b₁ hb₁ => ?_
      refine sound_searchAnywhere hw ps fun b' used rest hused hb' => ?_
      obtain ⟨both, hboth, hpart⟩ := exists_choice_of_left hchoice hused
      have hlen : both.length = n + used.length := (mem_choices hboth).1
      rw [← hlen] at hboth
      refine hk b' both rest hboth ⟨n, mem_counts_of_le hn (by simp [hlen]), taken.map (·.1),
        used.map (·.1), mem_choices_map _ hpart, value, b₁, hvalue, hb₁, hb'⟩

end

end Pattern

end Termwise
