import Termwise.Proofs.Pattern.Every
import Termwise.Proofs.Pattern.Growth

/-!
# Termwise.Proofs.Pattern.Scoped

Implicit defaults with a scope.  A search asks for the default of an argument that was
left out by the slot entered last (`Surroundings.default?`); nothing puts that slot back
when a branch is given up.  In `Pattern.searchScoped` the question is handed down with
the slot instead: it goes through names, conditions, tests, preferences and alternatives
to the optional argument that stands in the slot, whatever was tried before.

The two differ in alternatives only.  An alternative asks (`Pattern.asks`) while the slot
is still the one entered last, if those before it fail on an empty run without entering
a slot or going on with the match (`Pattern.idle`).  Patterns in which every slot is so
(`Pattern.TimelySlots`) are those for which the searches agree.
-/

namespace Termwise.Pattern

/-! ## searches with a scope -/

section Search

variable {m : Type → Type} [Monad m]

mutual

/-- Match a pattern against a term as `search` does; an optional argument that stands in the slot
being filled asks for its default by `ask`, any other one asks as in `search`. -/
def searchScoped (env : Surroundings m) (lookup : Slot → m (Option Term)) :
    Pattern → m (Option Term) → (ρ : Type) → Term → Bindings → (Bindings → m (Option ρ)) →
      m (Option ρ)
  | p, ask, ρ, t, b, k => do
    env.tick
    match p with
    | atom a | literal a => guardM (t.single?.any (· == a)) (k b)
    | blank type => guardM (t.single?.any (Term.hasType type)) (k b)
    | blankSequence type => guardM (!t.run.isEmpty && t.run.all (Term.hasType type)) (k b)
    | blankNullSequence type => guardM (t.run.all (Term.hasType type)) (k b)
    | named name p =>
      match b.get? name with
      | some value => guardM (value == t) (p.searchScoped env lookup ask ρ t b k)
      | none => p.searchScoped env lookup ask ρ t (b.push name t) k
    | condition p test =>
      p.searchScoped env lookup ask ρ t b fun b => do guardM (← holds env b test) (k b)
    | tested p f =>
      p.searchScoped env lookup ask ρ t b fun b => do guardM (← accepts env f t) (k b)
    | alternatives choices => searchChoicesScoped env lookup choices ask ρ t b k
    | repeated p _ least most =>
      searchRepeated env (fun b => p.size none b) (p.searchScoped env lookup env.default? ρ)
        least most k t.run.length t.run 0 b
    | optional p default => do
      if t.isMarker && t.args.isEmpty then
        match ← (match default with
          | some d => pure (some d)
          | none => ask) with
        | some d => p.searchScoped env lookup env.default? ρ d b k
        | none => pure none
      else p.searchScoped env lookup env.default? ρ t b k
    | hold p | longest p | shortest p => p.searchScoped env lookup ask ρ t b k
    | sequence parts =>
      searchSlotsScoped env lookup parts ρ none (.symbol .patternSequence) parts.length 1 t.run b
        fun b rest => guardM rest.isEmpty (k b)
    | except no => do
      match ← no.searchScoped env lookup env.default? Unit t b fun _ => pure (some ()) with
      | some _ => pure none
      | none => guardM t.single?.isSome (k b)
    | exceptThen no p => do
      match ← no.searchScoped env lookup env.default? Unit t b fun _ => pure (some ()) with
      | some _ => pure none
      | none => p.searchScoped env lookup env.default? ρ t b k
    | call whole head args => do
      match t.single? with
      | none => pure none
      | some subject =>
        if whole.isLiteral (← env.attributes) then guardM (whole == subject) (k b)
        else
          match subject with
          | .node _ f xs =>
            head.searchScoped env lookup env.default? ρ f b fun b => do
              let attrs := subject.headAttributes (← env.attributes)
              let flat := if attrs.has .flat then some f else none
              let (least, most) := totalRange args b
              if !attrs.has .flat && (xs.length < least || most < xs.length) then pure none
              else if attrs.has .orderless then
                searchAnywhereScoped env lookup args ρ flat f args.length 1 xs.zipIdx b
                  fun b free => guardM free.isEmpty (k b)
              else
                searchSlotsScoped env lookup args ρ flat f args.length 1 xs b
                  fun b rest => guardM rest.isEmpty (k b)
          | _ => pure none

/-- Match one of several patterns, tried in order. -/
def searchChoicesScoped (env : Surroundings m) (lookup : Slot → m (Option Term)) :
    List Pattern → m (Option Term) → (ρ : Type) → Term → Bindings →
      (Bindings → m (Option ρ)) → m (Option ρ)
  | [], _, _, _, _, _ => pure none
  | p :: ps, ask, ρ, t, b, k => do
    match ← p.searchScoped env lookup ask ρ t b k with
    | some r => pure (some r)
    | none => searchChoicesScoped env lookup ps ask ρ t b k

/-- Fill slots from left to right; each one asks for the default of its own. -/
def searchSlotsScoped (env : Surroundings m) (lookup : Slot → m (Option Term)) :
    List Pattern → (ρ : Type) → Option Term → Term → Nat → Nat → List Term → Bindings →
      (Bindings → List Term → m (Option ρ)) → m (Option ρ)
  | [], _, _, _, _, _, args, b, k => k b args
  | p :: ps, ρ, flat, head, count, index, args, b, k =>
    let s := p.size flat b
    (s.counts args.length).findSomeM? fun n => do
      let value ← env.share (s.value flat (args.take n))
      env.enter ⟨head, index, count⟩
      p.searchScoped env lookup (lookup ⟨head, index, count⟩) ρ value b fun b =>
        searchSlotsScoped env lookup ps ρ flat head count (index + 1) (args.drop n) b k

/-- Fill slots from any free arguments; each one asks for the default of its own. -/
def searchAnywhereScoped (env : Surroundings m) (lookup : Slot → m (Option Term)) :
    List Pattern → (ρ : Type) → Option Term → Term → Nat → Nat → List (Term × Nat) → Bindings →
      (Bindings → List (Term × Nat) → m (Option ρ)) → m (Option ρ)
  | [], _, _, _, _, _, free, b, k => k b free
  | p :: ps, ρ, flat, head, count, index, free, b, k =>
    let s := p.size flat b
    (s.counts free.length).findSomeM? fun n =>
      chooseM n free fun taken left => do
        let value ← env.share (s.value flat (taken.map (·.1)))
        env.enter ⟨head, index, count⟩
        p.searchScoped env lookup (lookup ⟨head, index, count⟩) ρ value b fun b =>
          searchAnywhereScoped env lookup ps ρ flat head count (index + 1) left b k

end

end Search

/-! ## who asks, and when -/

mutual

/-- Whether an optional argument without a default of its own stands in the slot. -/
def asks : Pattern → Bool
  | optional _ default => default.isNone
  | named _ p | condition p _ | tested p _ | hold p | longest p | shortest p => p.asks
  | alternatives ps => anyAsks ps
  | _ => false

/-- Whether an optional argument without a default of its own stands in the slot as one of several
patterns. -/
def anyAsks : List Pattern → Bool
  | [] => false
  | p :: ps => p.asks || anyAsks ps

end

mutual

/-- Whether a slot of the pattern takes an argument at least, whatever is bound. -/
def takesSome : Pattern → Bool
  | blank _ | blankSequence _ | literal _ | atom _ | call .. | except _ => true
  | condition p _ | tested p _ | hold p | longest p | shortest p | exceptThen _ p => p.takesSome
  | repeated p _ least _ => 0 < least && p.takesSome
  | alternatives ps => allTakeSome ps
  | named .. | optional .. | blankNullSequence _ | sequence _ => false

/-- Whether each of several patterns takes an argument at least. -/
def allTakeSome : List Pattern → Bool
  | [] => true
  | p :: ps => p.takesSome && allTakeSome ps

end

mutual

/-- Whether the pattern fails on an empty run before it enters a slot or goes on with the match. -/
def idle : Pattern → Bool
  | atom _ | literal _ | blank _ | blankSequence _ | call .. => true
  | named _ p | condition p _ | tested p _ | hold p | longest p | shortest p | except p => p.idle
  | exceptThen no p => no.idle && p.idle
  | alternatives ps => allIdle ps
  | repeated _ _ least _ => 0 < least
  | sequence (p :: _) => p.takesSome
  | sequence [] | optional .. | blankNullSequence _ => false

/-- Whether each of several patterns fails so. -/
def allIdle : List Pattern → Bool
  | [] => true
  | p :: ps => p.idle && allIdle ps

end

mutual

/-- Whether alternatives in the slot ask only after idle ones. -/
def timely : Pattern → Bool
  | named _ p | condition p _ | tested p _ | hold p | longest p | shortest p => p.timely
  | alternatives ps => timelyChoices ps
  | _ => true

/-- Whether alternatives ask only after idle ones. -/
def timelyChoices : List Pattern → Bool
  | [] => true
  | p :: ps => p.timely && (p.idle || !anyAsks ps) && timelyChoices ps

end

/-- Whether the slots right inside a pattern are timely. -/
def TimelySlots : Pattern → Prop
  | call _ _ ps | sequence ps => ∀ p ∈ ps, p.timely = true
  | _ => True

instance : DecidablePred TimelySlots
  | call _ _ ps | sequence ps => inferInstanceAs (Decidable (∀ p ∈ ps, p.timely = true))
  | blank _ | blankSequence _ | blankNullSequence _ | named _ _ | condition _ _ | tested _ _
  | alternatives _ | repeated _ _ _ _ | optional _ _ | hold _ | longest _ | shortest _ | literal _
  | except _ | exceptThen _ _ | atom _ => isTrue trivial

/-! ## slots that take something -/

theorem least_foldl_join {s : Size} {ts : List Size} (hs : 0 < s.least)
    (hts : ∀ t ∈ ts, 0 < t.least) : 0 < (ts.foldl Size.join s).least := by
  induction ts generalizing s with
  | nil => exact hs
  | cons t ts ih =>
      obtain ⟨ht, hts⟩ := List.forall_mem_cons.mp hts
      exact ih (Nat.lt_min.mpr ⟨hs, ht⟩) hts

mutual

theorem least_pos_of_takesSome (b : Bindings) : ∀ (p : Pattern), p.takesSome = true →
    0 < (p.size none b).least
  | blank _, _ | blankSequence _, _ | literal _, _ | atom _, _ | call .., _ | except _, _ =>
      Nat.one_pos
  | condition p _, h | tested p _, h | hold p, h | exceptThen _ p, h =>
      least_pos_of_takesSome b p h
  | longest p, h | shortest p, h => by
      rw [size]
      exact least_pos_of_takesSome b p h
  | repeated p _ least _, h => by
      rw [takesSome, Bool.and_eq_true, decide_eq_true_eq] at h
      rw [size]
      exact Nat.lt_min.mpr ⟨Nat.mul_pos (least_pos_of_takesSome b p h.2) h.1, by decide⟩
  | alternatives ps, h => by
      have hall := least_pos_of_allTakeSome b ps h
      rw [size]
      match hsizes : sizes none b ps with
      | [] => exact Nat.one_pos
      | s :: rest =>
          rw [hsizes] at hall
          obtain ⟨hs, hrest⟩ := List.forall_mem_cons.mp hall
          exact least_foldl_join hs hrest

theorem least_pos_of_allTakeSome (b : Bindings) : ∀ (ps : List Pattern), allTakeSome ps = true →
    ∀ s ∈ sizes none b ps, 0 < s.least
  | [], _ => nofun
  | p :: ps, h => by
      rw [allTakeSome, Bool.and_eq_true] at h
      rw [sizes]
      exact List.forall_mem_cons.mpr
        ⟨least_pos_of_takesSome b p h.1, least_pos_of_allTakeSome b ps h.2⟩

end

/-- There is no count to try for a slot that takes something when nothing is left. -/
theorem counts_eq_nil_of_takesSome {p : Pattern} (h : p.takesSome = true) (b : Bindings) :
    (p.size none b).counts 0 = [] := by
  have hpos := least_pos_of_takesSome b p h
  refine List.eq_nil_iff_forall_not_mem.mpr fun n hn => ?_
  obtain ⟨hleast, -, hle⟩ := Size.mem_counts.mp hn
  omega

end Termwise.Pattern
