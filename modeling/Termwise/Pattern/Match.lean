import Termwise.Pattern.Literal
import Termwise.Pattern.Size
import Termwise.Pattern.Substitute
import Termwise.Term.Order

/-!
# Termwise.Pattern.Match

The search for a match.  Pattern and subject are walked together; wherever there
is a choice, the choices are tried in order and the rest of the match is run under
each of them, so a late failure comes back to every earlier choice:

1. the slots of a call are filled from left to right;
2. a slot tries its argument counts in the order of `Size.counts`;
3. slots of an orderless call take sets of the free arguments, in lexicographic
   order of their positions;
4. alternatives are tried as written.

The rest of the match is a continuation, and what is bound so far is an argument
of it, so a failed branch leaves nothing behind.  What a search needs from outside
(`Surroundings`: tests, live attributes, implicit defaults, a step counter) it
reaches through a monad; the first failure there ends the whole search.
-/

namespace Termwise

/-! ## surroundings -/

/-- The slot of a call that is being filled. -/
structure Slot where
  /-- Head of the call. -/
  head : Term
  /-- Position of the slot, from 1. -/
  index : Nat
  /-- Number of slots. -/
  count : Nat

/-- What a search needs from outside. -/
structure Surroundings (m : Type → Type) where
  /-- Count one step of the search. -/
  tick : m Unit
  /-- The attributes that symbols have now. -/
  attributes : m (Symbol → Attributes)
  /-- Evaluate a term. -/
  evaluate : Term → m Term
  /-- Name the nodes of a term. -/
  share : Term → m Term
  /-- A slot is about to be filled. -/
  enter : Slot → m Unit
  /-- The default for the slot entered last. -/
  default? : m (Option Term)

/-! ## slots -/

/-- The term that stands for a run of arguments in one slot. -/
def Size.value (s : Size) (flat : Option Term) (items : List Term) : Term :=
  match items with
  | [one] => if s.regroups || s.most == 1 then one else .marker [one]
  | [] => .marker []
  | items =>
    match flat with
    | some head => if s.regroups then .call head items else .marker items
    | none => .marker items

/-- Whether a term is of the type that a blank asks for. -/
def Term.hasType (type : Option Term) (t : Term) : Bool :=
  match type with
  | none => true
  | some head =>
    match t with
    | .int _ => head.isSymbol .integer
    | .float _ => head.isSymbol .real
    | .text _ => head.isSymbol .string
    | .symbol _ => head.isSymbol .symbol
    | .node _ f _ => f == head
    | .magic _ | .host _ => false

/-- The attributes that rule the arguments of a call. -/
def Term.headAttributes (attrs : Symbol → Attributes) : Term → Attributes
  | .node _ (.symbol s) _ => attrs s
  | _ => .none

/-! ## choices -/

/-- Try every way to take `n` items out of a list, in lexicographic order of the positions taken;
`k` gets the items taken and the items left. -/
def chooseM {m : Type → Type} [Monad m] {α ρ : Type} :
    Nat → List α → (List α → List α → m (Option ρ)) → m (Option ρ)
  | 0, xs, k => k [] xs
  | _ + 1, [], _ => pure none
  | n + 1, x :: xs, k => do
    match ← chooseM n xs fun taken left => k (x :: taken) left with
    | some r => pure (some r)
    | none => chooseM (n + 1) xs fun taken left => k taken (x :: left)

namespace Pattern

variable {m : Type → Type} [Monad m]

/-- Whether a test evaluates to the true truth value under some bindings. -/
def holds (env : Surroundings m) (b : Bindings) (test : Term) : m Bool := do
  return (← env.evaluate (test.substitute b)).isSymbol .isTrue

/-- Whether a predicate evaluates to the true truth value on what a term stands for. -/
def accepts (env : Surroundings m) (predicate : Term) (t : Term) : m Bool := do
  return (← env.evaluate (.call predicate t.run)).isSymbol .isTrue

/-- Run `k` if a condition holds. -/
def guardM {ρ : Type} (condition : Bool) (k : m (Option ρ)) : m (Option ρ) :=
  if condition then k else pure none

/-- Match items as consecutive repetitions of a pattern, given by its search and its size; `bound`
is at least the number of items. -/
def searchRepeated {ρ : Type} (env : Surroundings m) (size : Bindings → Size)
    (one : Term → Bindings → (Bindings → m (Option ρ)) → m (Option ρ)) (least most : Nat)
    (k : Bindings → m (Option ρ)) : Nat → List Term → Nat → Bindings → m (Option ρ)
  | _, [], count, b => guardM (least ≤ count) (k b)
  | 0, _ :: _, _, _ => pure none
  | bound + 1, item :: rest, count, b =>
    if most ≤ count then pure none
    else
      let items := item :: rest
      let s := size b
      ((s.counts items.length).filter (· != 0)).findSomeM? fun n => do
        let value ← env.share (s.value none (items.take n))
        one value b fun b =>
          searchRepeated env size one least most k bound (items.drop n) (count + 1) b

mutual

/-- Match a pattern against a term, then run `k` on the bindings; the first result of `k`. -/
def search (env : Surroundings m) :
    Pattern → (ρ : Type) → Term → Bindings → (Bindings → m (Option ρ)) → m (Option ρ)
  | p, ρ, t, b, k => do
    env.tick
    match p with
    | atom a | literal a => guardM (t.single?.any (· == a)) (k b)
    | blank type => guardM (t.single?.any (Term.hasType type)) (k b)
    | blankSequence type => guardM (!t.run.isEmpty && t.run.all (Term.hasType type)) (k b)
    | blankNullSequence type => guardM (t.run.all (Term.hasType type)) (k b)
    | named name p =>
      match b.get? name with
      | some value => guardM (value == t) (p.search env ρ t b k)
      | none => p.search env ρ t (b.push name t) k
    | condition p test => p.search env ρ t b fun b => do guardM (← holds env b test) (k b)
    | tested p f => p.search env ρ t b fun b => do guardM (← accepts env f t) (k b)
    | alternatives choices => searchChoices env choices ρ t b k
    | repeated p _ least most =>
      searchRepeated env (fun b => p.size none b) (p.search env ρ) least most k
        t.run.length t.run 0 b
    | optional p default => do
      if t.isMarker && t.args.isEmpty then
        match ← (match default with
          | some d => pure (some d)
          | none => env.default?) with
        | some d => p.search env ρ d b k
        | none => pure none
      else p.search env ρ t b k
    | hold p | longest p | shortest p => p.search env ρ t b k
    | sequence parts =>
      searchSlots env parts ρ none (.symbol .patternSequence) parts.length 1 t.run b
        fun b rest => guardM rest.isEmpty (k b)
    | except no => do
      match ← no.search env Unit t b fun _ => pure (some ()) with
      | some _ => pure none
      | none => guardM t.single?.isSome (k b)
    | exceptThen no p => do
      match ← no.search env Unit t b fun _ => pure (some ()) with
      | some _ => pure none
      | none => p.search env ρ t b k
    | call whole head args => do
      match t.single? with
      | none => pure none
      | some subject =>
        if whole.isLiteral (← env.attributes) then guardM (whole == subject) (k b)
        else
          match subject with
          | .node _ f xs =>
            head.search env ρ f b fun b => do
              let attrs := subject.headAttributes (← env.attributes)
              let flat := if attrs.has .flat then some f else none
              let (least, most) := totalRange args b
              if !attrs.has .flat && (xs.length < least || most < xs.length) then pure none
              else if attrs.has .orderless then
                searchAnywhere env args ρ flat f args.length 1 xs.zipIdx b
                  fun b free => guardM free.isEmpty (k b)
              else
                searchSlots env args ρ flat f args.length 1 xs b
                  fun b rest => guardM rest.isEmpty (k b)
          | _ => pure none

/-- Match one of several patterns, tried in order. -/
def searchChoices (env : Surroundings m) :
    List Pattern → (ρ : Type) → Term → Bindings → (Bindings → m (Option ρ)) → m (Option ρ)
  | [], _, _, _, _ => pure none
  | p :: ps, ρ, t, b, k => do
    match ← p.search env ρ t b k with
    | some r => pure (some r)
    | none => searchChoices env ps ρ t b k

/-- Fill slots from left to right, the next one being slot `index` of `count`; `k` gets the
arguments left over. -/
def searchSlots (env : Surroundings m) :
    List Pattern → (ρ : Type) → Option Term → Term → Nat → Nat → List Term → Bindings →
      (Bindings → List Term → m (Option ρ)) → m (Option ρ)
  | [], _, _, _, _, _, args, b, k => k b args
  | p :: ps, ρ, flat, head, count, index, args, b, k =>
    let s := p.size flat b
    (s.counts args.length).findSomeM? fun n => do
      let value ← env.share (s.value flat (args.take n))
      env.enter ⟨head, index, count⟩
      p.search env ρ value b fun b =>
        searchSlots env ps ρ flat head count (index + 1) (args.drop n) b k

/-- Fill slots from any free arguments, given with their positions; `k` gets those still free. -/
def searchAnywhere (env : Surroundings m) :
    List Pattern → (ρ : Type) → Option Term → Term → Nat → Nat → List (Term × Nat) → Bindings →
      (Bindings → List (Term × Nat) → m (Option ρ)) → m (Option ρ)
  | [], _, _, _, _, _, free, b, k => k b free
  | p :: ps, ρ, flat, head, count, index, free, b, k =>
    let s := p.size flat b
    (s.counts free.length).findSomeM? fun n =>
      chooseM n free fun taken left => do
        let value ← env.share (s.value flat (taken.map (·.1)))
        env.enter ⟨head, index, count⟩
        p.search env ρ value b fun b =>
          searchAnywhere env ps ρ flat head count (index + 1) left b k

end

/-- The bindings of the first match. -/
def match? (env : Surroundings m) (p : Pattern) (subject : Term) : m (Option Bindings) :=
  p.search env Bindings subject .empty fun b => pure (some b)

end Pattern

end Termwise
