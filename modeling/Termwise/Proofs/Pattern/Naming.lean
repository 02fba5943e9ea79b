import Termwise.Proofs.Pattern.Likeness

/-!
# Termwise.Proofs.Pattern.Naming

Patterns of two runs that correspond up to their names (`Likeness.Renames`).  Names of the two
correspond one by one (`Naming`), and so do bindings (`Likeness.Rebound`).

A test stands for what it becomes under the bindings, so tests correspond when they become
terms that do.  For that the names in them have to be bound when they run, and a
pattern is read together with what is known to be bound before it; what it binds in
any case (`Pattern.Binds`) is known after it.
-/

namespace Termwise

/-! ## what a pattern binds -/

namespace Pattern

mutual

/-- Whether a name is bound whenever a pattern has matched. -/
def Binds (x : Symbol) : Pattern → Prop
  | named name p => x = name ∨ p.Binds x
  | condition p _ | tested p _ | optional p _ | hold p | longest p | shortest p
  | exceptThen _ p => p.Binds x
  | alternatives ps => AllBind x ps
  | repeated p _ least _ => least ≠ 0 ∧ p.Binds x
  | sequence ps => SomeBinds x ps
  | call _ head args => head.Binds x ∨ SomeBinds x args
  | blank _ | blankSequence _ | blankNullSequence _ | literal _ | except _ | atom _ => False

/-- Whether each of several patterns binds a name. -/
def AllBind (x : Symbol) : List Pattern → Prop
  | [] => True
  | p :: ps => p.Binds x ∧ AllBind x ps

/-- Whether one of several patterns binds a name. -/
def SomeBinds (x : Symbol) : List Pattern → Prop
  | [] => False
  | p :: ps => p.Binds x ∨ SomeBinds x ps

end

/-- What is known to be bound after a pattern. -/
def After (p : Pattern) (known : Symbol → Prop) (x : Symbol) : Prop := p.Binds x ∨ known x

/-- What is known to be bound after several patterns. -/
def AfterAll (ps : List Pattern) (known : Symbol → Prop) (x : Symbol) : Prop :=
  SomeBinds x ps ∨ known x

/-- What a form asks for itself: it names parts by some names, its test becomes one of some terms
under all bindings of these, and default values are looked up only if they may be. -/
def AsksOnly (names : Symbol → Prop) (asks : Term → Prop) (defaults : Prop) : Pattern → Prop
  | named x _ => names x
  | condition _ test => ∀ b : Bindings, (∀ e ∈ b.entries, names e.1) → asks (test.substitute b)
  | tested _ f => ∀ t : Term, asks (.call f t.run)
  | optional _ none => defaults
  | _ => True

theorem AllBind.binds {x : Symbol} {p : Pattern} {ps : List Pattern} (h : AllBind x ps)
    (hp : p ∈ ps) : p.Binds x := by
  induction ps with
  | nil => cases hp
  | cons q ps ih =>
      rcases List.mem_cons.mp hp with rfl | hp
      · exact h.1
      · exact ih h.2 hp

theorem afterAll_cons {p : Pattern} {ps : List Pattern} {known : Symbol → Prop} {x : Symbol}
    (h : AfterAll (p :: ps) known x) : AfterAll ps (p.After known) x := by
  rcases h with (hp | hps) | hx
  · exact .inr (.inl hp)
  · exact .inl hps
  · exact .inr (.inr hx)

end Pattern

/-! ## names one by one -/

/-- How the names of two runs correspond. -/
structure Naming where
  /-- Two names correspond. -/
  Same : Symbol → Symbol → Prop
  unique : ∀ {x x' y y' : Symbol}, Same x x' → Same y y' → (x = y ↔ x' = y')
  /-- It matters whether a name is bound. -/
  Wanted : Symbol → Prop

/-- Every name corresponds to itself, bound or not. -/
def Naming.self : Naming := ⟨Eq, fun hx hy => by rw [hx, hy], fun _ => False⟩

/-- The same names, but some of them only. -/
def Naming.within (N : Naming) (names : Symbol → Prop) : Naming where
  Same x x' := names x ∧ N.Same x x'
  unique hx hy := N.unique hx.2 hy.2
  Wanted := N.Wanted

/-- What searches of two runs ask for. -/
structure Requests (W : Type) where
  /-- Two terms are evaluated, one in each run. -/
  Tests : W → Term → Term → Prop
  /-- Default values are looked up. -/
  Defaults : Prop

/-- Terms that correspond may all be evaluated. -/
def Requests.all {W : Type} [Preorder W] (L : Likeness W) : Requests W := ⟨L.Like, True⟩

/-- The same requests, as far as the first run evaluates some terms, and default values if they may
be looked up. -/
def Requests.only {W : Type} (Q : Requests W) (asks : Term → Prop) (defaults : Prop) :
    Requests W := ⟨fun w t t' => asks t ∧ Q.Tests w t t', defaults⟩

namespace Likeness

variable {W : Type} [Preorder W] {L : Likeness W} {N : Naming} {Q : Requests W} {w w' : W}
  {known known' : Symbol → Prop} {b b' : Bindings} {t t' : Term} {flat flat' : Option Term}

/-! ## bindings -/

/-- Names that correspond are bound to terms that do, and what is known to be bound is. -/
structure Rebound (L : Likeness W) (N : Naming) (w : W) (known : Symbol → Prop)
    (b b' : Bindings) : Prop where
  entries : List.Forall₂ (fun e e' => N.Same e.1 e'.1 ∧ L.Like w e.2 e'.2) b.entries b'.entries
  bound : ∀ x, N.Wanted x → known x → (b.get? x).isSome = true

theorem Rebound.later (h : L.Rebound N w known b b') (hw : w ≤ w') : L.Rebound N w' known b b' :=
  ⟨h.entries.imp fun _ _ he => ⟨he.1, L.later hw he.2⟩, h.bound⟩

/-- Less is known to be bound. -/
theorem Rebound.forget (h : L.Rebound N w known b b')
    (hknown : ∀ x, N.Wanted x → known' x → known x) : L.Rebound N w known' b b' :=
  ⟨h.entries, fun x hx hx' => h.bound x hx (hknown x hx hx')⟩

/-- A pattern that binds no name adds nothing to what is known. -/
theorem Rebound.bare {p : Pattern} (h : L.Rebound N w known b b') (hp : ∀ x, ¬ p.Binds x) :
    L.Rebound N w (p.After known) b b' :=
  h.forget fun x _ hx => hx.resolve_left (hp x)

/-- Bindings of some names are bindings. -/
theorem Rebound.whole {names : Symbol → Prop} (h : L.Rebound (N.within names) w known b b') :
    L.Rebound N w known b b' :=
  ⟨h.entries.imp fun _ _ he => ⟨he.1.2, he.2⟩, h.bound⟩

theorem Rebound.names {names : Symbol → Prop} (h : L.Rebound (N.within names) w known b b') :
    ∀ e ∈ b.entries, names e.1 := by
  have hentries := h.entries
  generalize b.entries = entries, b'.entries = entries' at hentries
  induction hentries with
  | nil => exact nofun
  | cons he _ ih => exact List.forall_mem_cons.mpr ⟨he.1.1, ih⟩

theorem rebound_empty (L : Likeness W) (N : Naming) (w : W) :
    L.Rebound N w (fun _ => False) .empty .empty := ⟨.nil, fun _ _ h => h.elim⟩

theorem Rebound.get? (h : L.Rebound N w known b b') {x x' : Symbol} (hx : N.Same x x') :
    L.Maybe w (b.get? x) (b'.get? x') := by
  have hentries := h.entries
  unfold Bindings.get?
  generalize b.entries = entries, b'.entries = entries' at hentries
  induction hentries with
  | nil => exact .none
  | @cons e e' _ _ he _ ih =>
      rw [List.find?_cons, List.find?_cons]
      by_cases hname : e.1 = x
      · have hname' : e'.1 = x' := (N.unique he.1 hx).mp hname
        rw [beq_iff_eq.mpr hname, beq_iff_eq.mpr hname']
        exact .some he.2
      · have hname' : e'.1 ≠ x' := fun h => hname ((N.unique he.1 hx).mpr h)
        rw [beq_eq_false_iff_ne.mpr hname, beq_eq_false_iff_ne.mpr hname']
        exact ih

/-- One more name is bound, and known to be. -/
theorem Rebound.push (h : L.Rebound N w known b b') {x x' : Symbol} (hx : N.Same x x')
    (ht : L.Like w t t') :
    L.Rebound N w (fun y => y = x ∨ known y) (b.push x t) (b'.push x' t') where
  entries := List.rel_append h.entries (.cons ⟨hx, ht⟩ .nil)
  bound y hy hyx := by
    rw [Bindings.get?_push]
    rcases hyx with rfl | hknown
    · cases b.get? y <;> simp
    · have hsome := h.bound y hy hknown
      cases hget : b.get? y with
      | none => rw [hget] at hsome; cases hsome
      | some _ => rfl

/-! ## patterns -/

/-- Two terms are constants under the same attributes, and then correspond. -/
structure Constants (L : Likeness W) (w : W) (t t' : Term) : Prop where
  literal : ∀ attrs, t.isLiteral attrs = t'.isLiteral attrs
  like : ∀ attrs, t.isLiteral attrs = true → L.Like w t t'

theorem Constants.later (h : L.Constants w t t') (hw : w ≤ w') : L.Constants w' t t' :=
  ⟨h.literal, fun attrs hl => L.later hw (h.like attrs hl)⟩

theorem constants_of_like (h : L.Like w t t') : L.Constants w t t' where
  literal attrs := congr_strip (q := fun t => t.isLiteral attrs) (fun t => Term.isLiteral_strip t) h
  like _ _ := h

/-- Of two such terms both are a given symbol, or neither. -/
theorem Constants.beq_symbol (h : L.Constants w t t') (s : Symbol) :
    (t == Term.symbol s) = (t' == Term.symbol s) := by
  by_cases hl : t.isLiteral (fun _ => .none) = true
  · exact beq_congr (h.like _ hl) (L.symbol w s)
  · have hne : ∀ u : Term, u.isLiteral (fun _ => .none) ≠ true → (u == Term.symbol s) = false := by
      intro u hu
      cases u <;> first | exact absurd rfl hu | rfl
    rw [hne t hl, hne t' (h.literal _ ▸ hl)]

mutual

/-- Patterns of one form, with what is known to be bound before them: names and terms correspond,
and what tests become, under all bindings that they can run with, may be evaluated. -/
inductive Renames (L : Likeness W) (N : Naming) (Q : Requests W) (w : W) :
    (Symbol → Prop) → Pattern → Pattern → Prop
  | blank {known : Symbol → Prop} {type type' : Option Term} : L.Maybe w type type' →
      Renames L N Q w known (.blank type) (.blank type')
  | blankSequence {known : Symbol → Prop} {type type' : Option Term} : L.Maybe w type type' →
      Renames L N Q w known (.blankSequence type) (.blankSequence type')
  | blankNullSequence {known : Symbol → Prop} {type type' : Option Term} : L.Maybe w type type' →
      Renames L N Q w known (.blankNullSequence type) (.blankNullSequence type')
  | named {known : Symbol → Prop} {p p' : Pattern} {x x' : Symbol} : N.Same x x' →
      Renames L N Q w (fun y => y = x ∨ known y) p p' →
      Renames L N Q w known (.named x p) (.named x' p')
  | condition {known : Symbol → Prop} {p p' : Pattern} {test test' : Term} :
      Renames L N Q w known p p' →
      (∀ {w' b b'}, w ≤ w' → L.Rebound N w' (p.After known) b b' →
        Q.Tests w' (test.substitute b) (test'.substitute b')) →
      Renames L N Q w known (.condition p test) (.condition p' test')
  | tested {known : Symbol → Prop} {p p' : Pattern} {f f' : Term} : Renames L N Q w known p p' →
      (∀ {w' t t'}, w ≤ w' → L.Like w' t t' → Q.Tests w' (.call f t.run) (.call f' t'.run)) →
      Renames L N Q w known (.tested p f) (.tested p' f')
  | alternatives {known : Symbol → Prop} {ps ps' : List Pattern} :
      RenamesEach L N Q w known ps ps' →
      Renames L N Q w known (.alternatives ps) (.alternatives ps')
  | repeated {known : Symbol → Prop} {p p' : Pattern} (bounds bounds' : Option Term)
      (least most : Nat) : Renames L N Q w known p p' →
      Renames L N Q w known (.repeated p bounds least most) (.repeated p' bounds' least most)
  | optional {known : Symbol → Prop} {p p' : Pattern} {d d' : Option Term} :
      Renames L N Q w known p p' → L.Maybe w d d' → (d = none → Q.Defaults) →
      Renames L N Q w known (.optional p d) (.optional p' d')
  | hold {known : Symbol → Prop} {p p' : Pattern} : Renames L N Q w known p p' →
      Renames L N Q w known (.hold p) (.hold p')
  | longest {known : Symbol → Prop} {p p' : Pattern} : Renames L N Q w known p p' →
      Renames L N Q w known (.longest p) (.longest p')
  | shortest {known : Symbol → Prop} {p p' : Pattern} : Renames L N Q w known p p' →
      Renames L N Q w known (.shortest p) (.shortest p')
  | literal {known : Symbol → Prop} {t t' : Term} : L.Like w t t' →
      Renames L N Q w known (.literal t) (.literal t')
  | sequence {known : Symbol → Prop} {ps ps' : List Pattern} : RenamesSlots L N Q w known ps ps' →
      Renames L N Q w known (.sequence ps) (.sequence ps')
  | except {known : Symbol → Prop} {p p' : Pattern} : Renames L N Q w known p p' →
      Renames L N Q w known (.except p) (.except p')
  | exceptThen {known : Symbol → Prop} {p p' q q' : Pattern} : Renames L N Q w known p p' →
      Renames L N Q w known q q' → Renames L N Q w known (.exceptThen p q) (.exceptThen p' q')
  | call {known : Symbol → Prop} {whole whole' : Term} {p p' : Pattern} {ps ps' : List Pattern} :
      L.Constants w whole whole' → L.Constants w whole.key whole'.key →
      (∀ attrs, whole.isLiteral attrs = true → ∀ x, N.Wanted x →
        ¬ (Pattern.call whole p ps).Binds x) →
      Renames L N Q w known p p' → RenamesSlots L N Q w (p.After known) ps ps' →
      Renames L N Q w known (.call whole p ps) (.call whole' p' ps')
  | atom {known : Symbol → Prop} {t t' : Term} : L.Like w t t' →
      Renames L N Q w known (.atom t) (.atom t')

/-- Patterns that correspond one by one, one of which is matched. -/
inductive RenamesEach (L : Likeness W) (N : Naming) (Q : Requests W) (w : W) :
    (Symbol → Prop) → List Pattern → List Pattern → Prop
  | nil {known : Symbol → Prop} : RenamesEach L N Q w known [] []
  | cons {known : Symbol → Prop} {p p' : Pattern} {ps ps' : List Pattern} :
      Renames L N Q w known p p' →
      RenamesEach L N Q w known ps ps' → RenamesEach L N Q w known (p :: ps) (p' :: ps')

/-- Patterns that correspond one by one, matched one after the other. -/
inductive RenamesSlots (L : Likeness W) (N : Naming) (Q : Requests W) (w : W) :
    (Symbol → Prop) → List Pattern → List Pattern → Prop
  | nil {known : Symbol → Prop} : RenamesSlots L N Q w known [] []
  | cons {known : Symbol → Prop} {p p' : Pattern} {ps ps' : List Pattern} :
      Renames L N Q w known p p' →
      RenamesSlots L N Q w (p.After known) ps ps' → RenamesSlots L N Q w known (p :: ps) (p' :: ps')

end

theorem RenamesSlots.length_eq : ∀ {known} {ps ps' : List Pattern},
    L.RenamesSlots N Q w known ps ps' → ps.length = ps'.length
  | _, _, _, .nil => rfl
  | _, _, _, .cons _ hps => by rw [List.length_cons, List.length_cons, hps.length_eq]

mutual

theorem Renames.later (hw : w ≤ w') : ∀ {known} {p p' : Pattern},
    L.Renames N Q w known p p' → L.Renames N Q w' known p p'
  | _, _, _, .blank h => .blank (h.later hw)
  | _, _, _, .blankSequence h => .blankSequence (h.later hw)
  | _, _, _, .blankNullSequence h => .blankNullSequence (h.later hw)
  | _, _, _, .named hx hp => .named hx (hp.later hw)
  | _, _, _, .condition hp h => .condition (hp.later hw) fun hw' => h (hw.trans hw')
  | _, _, _, .tested hp h => .tested (hp.later hw) fun hw' => h (hw.trans hw')
  | _, _, _, .alternatives hps => .alternatives (hps.later hw)
  | _, _, _, .repeated bounds bounds' least most hp =>
    .repeated bounds bounds' least most (hp.later hw)
  | _, _, _, .optional hp h hd => .optional (hp.later hw) (h.later hw) hd
  | _, _, _, .hold hp => .hold (hp.later hw)
  | _, _, _, .longest hp => .longest (hp.later hw)
  | _, _, _, .shortest hp => .shortest (hp.later hw)
  | _, _, _, .literal h => .literal (L.later hw h)
  | _, _, _, .sequence hps => .sequence (hps.later hw)
  | _, _, _, .except hp => .except (hp.later hw)
  | _, _, _, .exceptThen hp hq => .exceptThen (hp.later hw) (hq.later hw)
  | _, _, _, .call h hkey hbinds hp hps =>
    .call (h.later hw) (hkey.later hw) hbinds (hp.later hw) (hps.later hw)
  | _, _, _, .atom h => .atom (L.later hw h)

theorem RenamesEach.later (hw : w ≤ w') : ∀ {known} {ps ps' : List Pattern},
    L.RenamesEach N Q w known ps ps' → L.RenamesEach N Q w' known ps ps'
  | _, _, _, .nil => .nil
  | _, _, _, .cons hp hps => .cons (hp.later hw) (hps.later hw)

theorem RenamesSlots.later (hw : w ≤ w') : ∀ {known} {ps ps' : List Pattern},
    L.RenamesSlots N Q w known ps ps' → L.RenamesSlots N Q w' known ps ps'
  | _, _, _, .nil => .nil
  | _, _, _, .cons hp hps => .cons (hp.later hw) (hps.later hw)

end

theorem Renames.unheld {p p' : Pattern} (hp : L.Renames N Q w known p p') :
    L.Renames N Q w known p.unheld p'.unheld := by
  have hsame := hp
  cases hp with
  | hold hp => exact hp
  | _ => exact hsame

mutual

/-- Patterns with terms that correspond do so under the same names. -/
theorem Patterns.renames : ∀ {p p' : Pattern}, L.Patterns w p p' → ∀ known : Symbol → Prop,
    L.Renames .self (.all L) w known p p'
  | _, _, .blank h, _ => .blank h
  | _, _, .blankSequence h, _ => .blankSequence h
  | _, _, .blankNullSequence h, _ => .blankNullSequence h
  | _, _, .named _ hp, _ => .named rfl (hp.renames _)
  | _, _, .condition hp h, _ =>
    .condition (hp.renames _) fun hw hb => like_substitute hb.entries (L.later hw h)
  | _, _, .tested hp h, _ =>
    .tested (hp.renames _) fun hw ht => L.call (L.later hw h) (all_run ht)
  | _, _, .alternatives hps, _ => .alternatives (hps.renamesEach _)
  | _, _, .repeated bounds bounds' least most hp, _ =>
    .repeated bounds bounds' least most (hp.renames _)
  | _, _, .optional hp h, _ => .optional (hp.renames _) h fun _ => trivial
  | _, _, .hold hp, _ => .hold (hp.renames _)
  | _, _, .longest hp, _ => .longest (hp.renames _)
  | _, _, .shortest hp, _ => .shortest (hp.renames _)
  | _, _, .literal h, _ => .literal h
  | _, _, .sequence hps, _ => .sequence (hps.renamesSlots _)
  | _, _, .except hp, _ => .except (hp.renames _)
  | _, _, .exceptThen hp hq, _ => .exceptThen (hp.renames _) (hq.renames _)
  | _, _, .call h hp hps, _ =>
    .call (constants_of_like h) (constants_of_like (like_key h)) (fun _ _ _ h => h.elim)
      (hp.renames _) (hps.renamesSlots _)
  | _, _, .atom h, _ => .atom h

theorem AllPatterns.renamesEach : ∀ {ps ps' : List Pattern}, L.AllPatterns w ps ps' →
    ∀ known : Symbol → Prop, L.RenamesEach .self (.all L) w known ps ps'
  | _, _, .nil, _ => .nil
  | _, _, .cons hp hps, _ => .cons (hp.renames _) (hps.renamesEach _)

theorem AllPatterns.renamesSlots : ∀ {ps ps' : List Pattern}, L.AllPatterns w ps ps' →
    ∀ known : Symbol → Prop, L.RenamesSlots .self (.all L) w known ps ps'
  | _, _, .nil, _ => .nil
  | _, _, .cons hp hps, _ => .cons (hp.renames _) (hps.renamesSlots _)

end

/-! ## what is asked for -/

section

variable {names : Symbol → Prop} {asks : Term → Prop} {defaults : Prop}

mutual

theorem Renames.only : ∀ {known} {p p' : Pattern}, L.Renames N Q w known p p' →
    p.Every (Pattern.AsksOnly names asks defaults) →
      L.Renames (N.within names) (Q.only asks defaults) w known p p'
  | _, _, _, .blank h, _ => .blank h
  | _, _, _, .blankSequence h, _ => .blankSequence h
  | _, _, _, .blankNullSequence h, _ => .blankNullSequence h
  | _, _, _, .named hx hp, ha => .named ⟨ha.1, hx⟩ (hp.only ha.2)
  | _, _, _, .condition hp h, ha =>
    .condition (hp.only ha.2) fun hw hb => ⟨ha.1 _ hb.names, h hw hb.whole⟩
  | _, _, _, .tested hp h, ha => .tested (hp.only ha.2) fun hw ht => ⟨ha.1 _, h hw ht⟩
  | _, _, _, .alternatives hps, ha => .alternatives (hps.only ha.2)
  | _, _, _, .repeated bounds bounds' least most hp, ha =>
    .repeated bounds bounds' least most (hp.only ha.2)
  | _, _, _, .optional hp h _, ha =>
    .optional (hp.only ha.2) h fun hd => by
      subst hd
      exact ha.1
  | _, _, _, .hold hp, ha => .hold (hp.only ha.2)
  | _, _, _, .longest hp, ha => .longest (hp.only ha.2)
  | _, _, _, .shortest hp, ha => .shortest (hp.only ha.2)
  | _, _, _, .literal h, _ => .literal h
  | _, _, _, .sequence hps, ha => .sequence (hps.only ha.2)
  | _, _, _, .except hp, ha => .except (hp.only ha.2)
  | _, _, _, .exceptThen hp hq, ha => .exceptThen (hp.only ha.2.1) (hq.only ha.2.2)
  | _, _, _, .call h hkey hbinds hp hps, ha =>
    .call h hkey hbinds (hp.only ha.2.1) (hps.only ha.2.2)
  | _, _, _, .atom h, _ => .atom h

theorem RenamesEach.only : ∀ {known} {ps ps' : List Pattern}, L.RenamesEach N Q w known ps ps' →
    Pattern.AllEvery (Pattern.AsksOnly names asks defaults) ps →
      L.RenamesEach (N.within names) (Q.only asks defaults) w known ps ps'
  | _, _, _, .nil, _ => .nil
  | _, _, _, .cons hp hps, ha => .cons (hp.only ha.1) (hps.only ha.2)

theorem RenamesSlots.only : ∀ {known} {ps ps' : List Pattern}, L.RenamesSlots N Q w known ps ps' →
    Pattern.AllEvery (Pattern.AsksOnly names asks defaults) ps →
      L.RenamesSlots (N.within names) (Q.only asks defaults) w known ps ps'
  | _, _, _, .nil, _ => .nil
  | _, _, _, .cons hp hps, ha => .cons (hp.only ha.1) (hps.only ha.2)

end

end

/-- Patterns that correspond up to their names have equal dispatch keys, or both have none. -/
theorem Renames.rel_dispatchKey (attrs : Symbol → Attributes) : ∀ {known} {p p' : Pattern},
    L.Renames N Q w known p p' →
      Option.Rel (fun key key' : Term => key.strip = key'.strip) (p.dispatchKey attrs)
        (p'.dispatchKey attrs)
  | _, _, _, .hold hp | _, _, _, .condition hp _ | _, _, _, .named _ hp => hp.rel_dispatchKey attrs
  | _, _, _, .literal h => .some (L.strip_eq (like_key h))
  | _, _, _, .call _ hkey _ _ _ => by
      rw [Pattern.dispatchKey, Pattern.dispatchKey, hkey.literal]
      split
      · exact .some (L.strip_eq (hkey.like attrs ((hkey.literal attrs).trans ‹_›)))
      · exact .none
  | _, _, _, .atom h => .some (L.strip_eq h)
  | _, _, _, .blank _ | _, _, _, .blankSequence _ | _, _, _, .blankNullSequence _
  | _, _, _, .tested _ _ | _, _, _, .alternatives _ | _, _, _, .repeated _ _ _ _ _
  | _, _, _, .optional _ _ _ | _, _, _, .longest _ | _, _, _, .shortest _ | _, _, _, .sequence _
  | _, _, _, .except _ | _, _, _, .exceptThen _ _ => .none

/-! ## sizes -/

mutual

/-- Patterns that correspond up to their names may take the same numbers of arguments. -/
theorem Renames.size_eq {bound : Symbol → Prop} (hb : L.Rebound N w bound b b') :
    ∀ {known} {p p' : Pattern} {flat flat' : Option Term}, L.Renames N Q w known p p' →
      L.Maybe w flat flat' → p.size flat b = p'.size flat' b'
  | _, _, _, _, _, .blank _, hflat | _, _, _, _, _, .blankSequence _, hflat
  | _, _, _, _, _, .blankNullSequence _, hflat => Pattern.inFlat_congr hflat.map_strip _ _
  | _, _, _, flat, flat', .named hx hp, hflat => by
      have hget := hb.get? hx
      simp only [Pattern.size, hp.size_eq hb hflat]
      generalize b.get? _ = o, b'.get? _ = o' at hget
      cases hget with
      | none => rfl
      | some hv => simp only [Term.boundLength_congr hflat.map_strip (L.strip_eq hv)]
  | _, _, _, _, _, .condition hp _, hflat | _, _, _, _, _, .tested hp _, hflat
  | _, _, _, _, _, .hold hp, hflat | _, _, _, _, _, .longest hp, hflat
  | _, _, _, _, _, .shortest hp, hflat | _, _, _, _, _, .optional hp _ _, hflat
  | _, _, _, _, _, .exceptThen _ hp, hflat => by simp only [Pattern.size, hp.size_eq hb hflat]
  | _, _, _, _, _, .repeated _ _ _ _ hp, _ => by simp only [Pattern.size, hp.size_eq hb .none]
  | _, _, _, _, _, .alternatives hps, hflat => by simp only [Pattern.size, hps.sizes_eq hb hflat]
  | _, _, _, _, _, .sequence hps, _ => by simp only [Pattern.size, hps.sizes_eq hb .none]
  | _, _, _, _, _, .literal _, _ | _, _, _, _, _, .except _, _ | _, _, _, _, _, .call _ _ _ _ _, _
  | _, _, _, _, _, .atom _, _ => rfl

theorem RenamesEach.sizes_eq {bound : Symbol → Prop} (hb : L.Rebound N w bound b b') :
    ∀ {known} {ps ps' : List Pattern} {flat flat' : Option Term},
      L.RenamesEach N Q w known ps ps' → L.Maybe w flat flat' →
      Pattern.sizes flat b ps = Pattern.sizes flat' b' ps'
  | _, _, _, _, _, .nil, _ => rfl
  | _, _, _, _, _, .cons hp hps, hflat => by
      rw [Pattern.sizes, Pattern.sizes, hp.size_eq hb hflat, hps.sizes_eq hb hflat]

theorem RenamesSlots.sizes_eq {bound : Symbol → Prop} (hb : L.Rebound N w bound b b') :
    ∀ {known} {ps ps' : List Pattern} {flat flat' : Option Term},
      L.RenamesSlots N Q w known ps ps' → L.Maybe w flat flat' →
      Pattern.sizes flat b ps = Pattern.sizes flat' b' ps'
  | _, _, _, _, _, .nil, _ => rfl
  | _, _, _, _, _, .cons hp hps, hflat => by
      rw [Pattern.sizes, Pattern.sizes, hp.size_eq hb hflat, hps.sizes_eq hb hflat]

end

theorem RenamesSlots.totalRange_eq {ps ps' : List Pattern} (hps : L.RenamesSlots N Q w known ps ps')
    (hb : L.Rebound N w known b b') : Pattern.totalRange ps b = Pattern.totalRange ps' b' := by
  rw [Pattern.totalRange, Pattern.totalRange, hps.sizes_eq hb .none]

end Likeness

end Termwise
