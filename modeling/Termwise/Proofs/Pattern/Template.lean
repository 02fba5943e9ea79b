import Termwise.Proofs.Pattern.NamedBlanks
import Termwise.Proofs.Term.NormalForm

/-!
# Termwise.Proofs.Pattern.Template

A pattern of atoms, calls and named blanks, read as a template: every named blank
becomes its name.  The bindings of a solution, put into the template, give back the
subject, up to what flat and orderless heads leave open:

```text
slot value            put in place of the name           contributes
one argument          the argument                       the argument
run of arguments      its items, spliced                 the items
flat call f(a, b)     a nested call of the flat head     a, b once dissolved
```

The invariant of the induction is `Reproduces`: what a template becomes stands for
terms with the normal forms of those that the pattern matched.
-/

namespace Termwise

namespace Bindings

/-! ## bindings without identities -/

theorem Extends.strip {b b' : Bindings} (h : b'.Extends b) : b'.strip.Extends b.strip := by
  intro x v hv
  rw [get?_strip, Option.map_eq_some_iff] at hv
  obtain ⟨u, hu, rfl⟩ := hv
  rw [get?_strip, h x u hu, Option.map_some]

/-- What is bound stays bound, to an equal term. -/
theorem Extends.get? {b b' : Bindings} (h : b'.strip.Extends b.strip) {x : Symbol} {v : Term}
    (hv : b.get? x = some v) : ∃ u, b'.get? x = some u ∧ u.strip = v.strip := by
  have hstrip := h x v.strip (by rw [get?_strip, hv, Option.map_some])
  rwa [get?_strip, Option.map_eq_some_iff] at hstrip

end Bindings

namespace Term

/-! ## substitution into calls -/

theorem spliceArgs_eq_flatMap (b : Bindings) (ts : List Term) :
    spliceArgs b ts = ts.flatMap fun t => (t.substitute b).run := by
  induction ts with
  | nil => rfl
  | cons t ts ih =>
      rw [spliceArgs, ih, List.flatMap_cons]
      rfl

/-- Up to the first replaced argument there is nothing to splice when no argument is a run. -/
theorem substituteArgs?_getD {b : Bindings} {ts : List Term} (h : ∀ t ∈ ts, t.isMarker = false) :
    (substituteArgs? b ts).getD ts = spliceArgs b ts := by
  induction ts with
  | nil => rfl
  | cons t ts ih =>
      obtain ⟨ht, hts⟩ := List.forall_mem_cons.mp h
      have hrest := ih hts
      rw [substituteArgs?, spliceArgs]
      cases t.substitute? b with
      | some new => rfl
      | none =>
          rw [Option.getD_none, run_of_not_isMarker ht, ← hrest]
          cases substituteArgs? b ts <;> rfl

/-- Substitution goes into a call part by part. -/
theorem substitute_call {b : Bindings} {f : Term} {xs : List Term}
    (h : ∀ x ∈ xs, x.isMarker = false) :
    (call f xs).substitute b =
      call (f.substitute b) (xs.flatMap fun x => (x.substitute b).run) := by
  rw [← spliceArgs_eq_flatMap, ← substituteArgs?_getD h, call, substitute, substitute?, substitute]
  cases f.substitute? b with
  | some new => rw [substituteArgs?_getD h]; rfl
  | none => cases substituteArgs? b xs <;> rfl

mutual

/-- A term without bound names has none to replace. -/
theorem substitute?_of_unbound {b : Bindings} : ∀ {t : Term},
    (t.Every fun s => ∀ x, s = .symbol x → b.get? x = none) → t.substitute? b = none
  | .symbol x, h => h x rfl
  | .node _ f xs, h => by
      rw [substitute?, substitute?_of_unbound h.2.1, substituteArgs?_of_unbound h.2.2]
      rfl
  | .magic _, _ | .int _, _ | .float _, _ | .text _, _ | .host _, _ => rfl

theorem substituteArgs?_of_unbound {b : Bindings} : ∀ {ts : List Term},
    (AllEvery (fun s => ∀ x, s = .symbol x → b.get? x = none) ts) → substituteArgs? b ts = none
  | [], _ => rfl
  | t :: ts, h => by
      rw [substituteArgs?, substitute?_of_unbound h.1, substituteArgs?_of_unbound h.2]
      rfl

end

end Term

namespace Pattern

/-! ## templates -/

mutual

/-- The term that a pattern stands for once its names are known: every named part becomes its
name. -/
def template : Pattern → Term
  | named x _ => .symbol x
  | call _ head args => .call head.template (templates args)
  | p => p.toTerm

/-- The terms that several patterns stand for. -/
def templates : List Pattern → List Term
  | [] => []
  | p :: ps => p.template :: templates ps

end

mutual

/-- Whether a pattern is built of atoms, calls and named blanks, and none of its atoms is one of
some names. -/
def BuiltOfSlots (names : List Symbol) : Pattern → Prop
  | atom a => ∀ x ∈ names, a ≠ .symbol x
  | named _ p => p.IsBlank
  | call _ head args => head.BuiltOfSlots names ∧ AllBuiltOfSlots names args
  | _ => False

/-- Whether all of several patterns are built so. -/
def AllBuiltOfSlots (names : List Symbol) : List Pattern → Prop
  | [] => True
  | p :: ps => p.BuiltOfSlots names ∧ AllBuiltOfSlots names ps

end

/-- Whether a pattern was read off a term without runs. -/
def ReadOffMarkerFree (p : Pattern) : Prop := ∃ s : Term, s.MarkerFree ∧ p = ofTerm s

/-- Whether the name of a slot is bound to something that fits its blank. -/
def SlotFits (c : Bindings) : Pattern → Prop
  | named x p => ∃ v, c.get? x = some v ∧ p.Accepts v.run
  | _ => True

variable {names : List Symbol} {p : Pattern} {ps : List Pattern} {c : Bindings}

theorem templates_eq_map (ps : List Pattern) : templates ps = ps.map template := by
  induction ps with
  | nil => rfl
  | cons p ps ih => rw [templates, ih, List.map_cons]

theorem allBuiltOfSlots_iff : AllBuiltOfSlots names ps ↔ ∀ p ∈ ps, p.BuiltOfSlots names := by
  induction ps with
  | nil => simp [AllBuiltOfSlots]
  | cons p ps ih => simp [AllBuiltOfSlots, ih]

mutual

/-- Named blanks ask nothing of the world. -/
theorem BuiltOfSlots.settled {tests : Prop} : ∀ {p : Pattern}, p.BuiltOfSlots names →
    p.Every (Settled tests)
  | atom _, _ => trivial
  | named _ p, h => by
      refine ⟨trivial, ?_⟩
      cases p <;> trivial
  | call _ _ _, h => ⟨trivial, h.1.settled, h.2.settled⟩

theorem AllBuiltOfSlots.settled {tests : Prop} : ∀ {ps : List Pattern}, AllBuiltOfSlots names ps →
    AllEvery (Settled tests) ps
  | [], _ => trivial
  | _ :: _, h => ⟨h.1.settled, h.2.settled⟩

end

/-- Only the atom that heads runs has a template that heads runs. -/
theorem eq_atom_of_template_eq_magic {m : Magic} (hp : p.BuiltOfSlots names)
    (h : p.template = .magic m) : p = atom (.magic m) := by
  cases p with
  | atom a => exact congrArg atom h
  | named x p => cases h
  | call whole head args => cases h
  | _ => exact hp.elim

/-- A template is no run. -/
theorem isMarker_template (hp : p.BuiltOfSlots names) (hread : p.ReadOffMarkerFree) :
    p.template.isMarker = false := by
  obtain ⟨s, hs, hps⟩ := hread
  cases p with
  | atom a =>
      obtain ⟨rfl, -⟩ := eq_of_ofTerm_eq_atom hps.symm
      exact hs.isMarker
  | named x p => rfl
  | call whole head args =>
      obtain ⟨-, i, f, xs, rfl, rfl, -⟩ := eq_of_ofTerm_eq_call hps.symm
      have hm := hs.isMarker
      rw [template, Term.call]
      cases htemplate : (ofTerm f).template with
      | magic m =>
          obtain ⟨rfl, -⟩ := eq_of_ofTerm_eq_atom (eq_atom_of_template_eq_magic hp.1 htemplate)
          cases m with
          | sequence => cases hm
          | _ => rfl
      | _ => rfl
  | _ => exact hp.elim

/-! ## constants -/

/-- The template of a constant is the constant. -/
theorem template_of_isLiteral {attrs : Symbol → Attributes} : ∀ (a : Term),
    a.isLiteral attrs = true → (ofTerm a).template.strip = a.strip
  | .node i f xs, ha => by
      obtain ⟨hf, hread⟩ := ofTerm_of_head_isLiteral ha
      have hxs := Term.isLiteral_of_mem (Term.areLiteral_of_isLiteral ha)
      have hargs : ((xs.map ofTerm).map template).map Term.strip = xs.map Term.strip := by
        rw [List.map_map, List.map_map]
        exact List.map_congr_left fun x hx => template_of_isLiteral x (hxs x hx)
      rw [hread, template, ofTerms_eq_map, templates_eq_map, Term.strip_call, hargs,
        template_of_isLiteral f hf, Term.strip, Term.stripAll_eq_map]
      rfl
  | .magic _, _ | .int _, _ | .float _, _ | .text _, _ | .symbol _, _ | .host _, _ => rfl

/-- No part of a constant is one of the names. -/
theorem every_of_builtOfSlots {attrs : Symbol → Attributes} : ∀ (a : Term),
    a.isLiteral attrs = true → (ofTerm a).BuiltOfSlots names →
      a.Every fun s => ∀ x ∈ names, s ≠ .symbol x
  | .node i f xs, ha, h => by
      obtain ⟨hf, hread⟩ := ofTerm_of_head_isLiteral ha
      have hxs := Term.isLiteral_of_mem (Term.areLiteral_of_isLiteral ha)
      rw [hread, BuiltOfSlots, ofTerms_eq_map, allBuiltOfSlots_iff] at h
      refine Term.every_node.mpr ⟨fun _ _ => nofun, every_of_builtOfSlots f hf h.1, fun x hx => ?_⟩
      exact every_of_builtOfSlots x (hxs x hx) (h.2 _ (List.mem_map_of_mem hx))
  | .magic _, _, h | .int _, _, h | .float _, _, h | .text _, _, h | .symbol _, _, h
  | .host _, _, h => h

/-- Bindings of the names leave the template of a constant alone. -/
theorem substitute_template_of_isLiteral {attrs : Symbol → Attributes} {a : Term}
    (ha : a.isLiteral attrs = true) (hp : (ofTerm a).BuiltOfSlots names)
    (hc : ∀ x ∉ names, c.get? x = none) :
    ((ofTerm a).template.substitute c).strip = a.strip := by
  have hunbound : a.Every fun s => ∀ x, s = .symbol x → c.get? x = none :=
    (every_of_builtOfSlots a ha hp).imp fun s hs x hx => hc x fun hmem => hs x hmem hx
  rw [Term.substitute_congr rfl (template_of_isLiteral a ha), Term.substitute,
    Term.substitute?_of_unbound hunbound, Option.getD_none]

/-! ## slots -/

/-- Blanks accept equal runs. -/
theorem IsBlank.accepts_congr (hp : p.IsBlank) {xs ys : List Term}
    (h : xs.map Term.strip = ys.map Term.strip) (hxs : p.Accepts xs) : p.Accepts ys := by
  have hall : ∀ type, (∀ x ∈ xs, x.hasType type = true) → ∀ y ∈ ys, y.hasType type = true := by
    intro type hx
    rw [← List.all_eq_true, ← Term.all_hasType_congr type h, List.all_eq_true]
    exact hx
  cases p with
  | blank type =>
      obtain ⟨x, rfl, hx⟩ := hxs
      obtain ⟨y, rfl⟩ : ∃ y, ys = [y] := by
        have hlength := congrArg List.length h
        simp only [List.length_map, List.length_singleton] at hlength
        exact List.length_eq_one_iff.mp hlength.symm
      exact ⟨y, rfl, hall type (by simpa using hx) y List.mem_cons_self⟩
  | blankSequence type =>
      refine ⟨?_, hall type hxs.2⟩
      rintro rfl
      exact hxs.1 (List.map_eq_nil_iff.mp h)
  | blankNullSequence type => exact hall type hxs
  | _ => exact hp.elim

/-- What a slot takes without runs stands for terms without runs. -/
theorem markerFree_of_mem_run_value (s : Size) {flat : Option Term} {items : List Term}
    (hitems : ∀ x ∈ items, x.MarkerFree) (hflat : ∀ f ∈ flat, (Term.call f items).MarkerFree) :
    ∀ x ∈ (s.value flat items).run, x.MarkerFree := by
  match items, hitems, hflat with
  | [], hitems, _ => exact hitems
  | [x], hitems, _ =>
      simp only [Size.value]
      split
      · rwa [(hitems x List.mem_cons_self).run]
      · exact hitems
  | x :: y :: zs, hitems, hflat =>
      cases flat with
      | none => exact hitems
      | some f =>
          simp only [Size.value]
          split
          · rw [(hflat f rfl).run]
            exact List.forall_mem_singleton.mpr (hflat f rfl)
          · exact hitems

/-- What a slot takes contributes the same to the call as the arguments it was made from. -/
theorem equivalentArgs_run_value {attrs : Symbol → Attributes} {f : Term} (s : Size)
    {flat : Option Term} {items : List Term} (hitems : ∀ x ∈ items, x.MarkerFree)
    (hflat : ∀ g ∈ flat, g = f ∧ Term.isFlat attrs f = true)
    (hcall : (Term.call f items).MarkerFree) :
    Term.EquivalentArgs attrs f (s.value flat items).run items := by
  have hrefl : Term.EquivalentArgs attrs f items items := Term.equivalentArgs_of_map_eq rfl
  match items, hitems, hcall, hrefl with
  | [], _, _, hrefl => exact hrefl
  | [x], hitems, _, hrefl =>
      simp only [Size.value]
      split
      · rwa [(hitems x List.mem_cons_self).run]
      · exact hrefl
  | x :: y :: zs, _, hcall, hrefl =>
      cases flat with
      | none => exact hrefl
      | some g =>
          obtain ⟨rfl, hf⟩ := hflat g rfl
          simp only [Size.value]
          split
          · rw [hcall.run]
            exact Term.equivalentArgs_group hf 0 _
          · exact hrefl

/-! ## solutions -/

section Solutions

variable {w : World}

/-- The template of a pattern, with bindings put in, stands for terms with the normal forms of
those that the pattern was matched against; it is no run where that term is none, and every slot is
bound to something that fits. -/
structure Reproduces (w : World) (c : Bindings) (p : Pattern) (t : Term) : Prop where
  run : (p.template.substitute c).run.map (Term.canonical w.attributes) =
    t.run.map (Term.canonical w.attributes)
  single : t.isMarker = false → (p.template.substitute c).isMarker = false
  fits : p.Every (SlotFits c)

/-- A name puts back what it is bound to. -/
theorem reproduces_named {x : Symbol} {t v : Term} (hp : p.IsBlank) (hv : c.get? x = some v)
    (hvt : v.strip = t.strip) (haccepts : p.Accepts t.run) : Reproduces w c (named x p) t := by
  have hsubst : (named x p).template.substitute c = v := by
    rw [template, Term.substitute, Term.substitute?, hv, Option.getD_some]
  refine ⟨?_, fun ht => ?_, ⟨⟨v, hv, ?_⟩, ?_⟩⟩
  · rw [hsubst]
    exact Term.map_canonical_congr _ (Term.run_congr hvt)
  · rw [hsubst, ← Term.isMarker_strip, hvt, Term.isMarker_strip, ht]
  · exact hp.accepts_congr (Term.run_congr hvt.symm) haccepts
  · cases p <;> trivial

/-- What becomes a term that is no run stands for the one term matched. -/
theorem reproduces_of_canonical {t x : Term} (ht : t.run = [x])
    (hm : (p.template.substitute c).isMarker = false)
    (heq : Term.canonical w.attributes (p.template.substitute c) = Term.canonical w.attributes x)
    (hfits : p.Every (SlotFits c)) : Reproduces w c p t where
  run := by rw [Term.run_of_not_isMarker hm, ht, List.map_singleton, List.map_singleton, heq]
  single := fun _ => hm
  fits := hfits

theorem reproduces_atom {a t x : Term} (hp : (atom a).BuiltOfSlots names)
    (hread : (atom a).ReadOffMarkerFree) (hc : ∀ x ∉ names, c.get? x = none) (ht : t.run = [x])
    (hxa : (x == a) = true) : Reproduces w c (atom a) t := by
  obtain ⟨s, hs, hps⟩ := hread
  obtain ⟨rfl, hatom⟩ := eq_of_ofTerm_eq_atom hps.symm
  have hsubst : (atom s).template.substitute c = s := by
    change s.substitute c = s
    cases s with
    | symbol y => 
        rw [Term.substitute, Term.substitute?, hc y fun hy => hp y hy rfl, Option.getD_none]
    | node i f xs => exact absurd rfl (hatom i f xs)
    | _ => rfl
  refine reproduces_of_canonical ht ?_ ?_ trivial
  · rw [hsubst, hs.isMarker]
  · rw [hsubst]
    exact (Term.canonical_congr _ ((Term.beq_iff_strip x s).mp hxa)).symm

/-- A constant matched as a whole. -/
theorem reproduces_constant {whole t x : Term} {head : Pattern} {args : List Pattern}
    (hp : (call whole head args).BuiltOfSlots names)
    (hread : (call whole head args).ReadOffMarkerFree) (hc : ∀ x ∉ names, c.get? x = none)
    (hlit : whole.isLiteral w.attributes = true) (ht : t.run = [x]) (hwx : (whole == x) = true) :
    Reproduces w c (call whole head args) t := by
  obtain ⟨s, hs, hps⟩ := hread
  obtain ⟨rfl, -⟩ := eq_of_ofTerm_eq_call hps.symm
  rw [hps] at hp ⊢
  have hsubst := substitute_template_of_isLiteral hlit hp hc
  refine reproduces_of_canonical ht ?_ ?_ ?_
  · rw [← Term.isMarker_strip, hsubst, Term.isMarker_strip, hs.isMarker]
  · rw [Term.canonical_congr _ hsubst]
    exact Term.canonical_congr _ ((Term.beq_iff_strip s x).mp hwx)
  · exact every_of_isLiteral (fun _ _ _ => trivial) (fun _ => trivial) hlit

/-- What the templates of slots become, one after the other. -/
def filled (c : Bindings) (ps : List Pattern) : List Term :=
  ps.flatMap fun p => (p.template.substitute c).run

/-- A call matched part by part. -/
theorem reproduces_call {whole t f : Term} {head : Pattern} {args : List Pattern} {i : Nat}
    {xs : List Term} (hargs : ∀ p ∈ args, p.template.isMarker = false)
    (ht : t.run = [.node i f xs]) (hsubject : (Term.node i f xs).MarkerFree)
    (hhead : Reproduces w c head f) (hfits : AllEvery (SlotFits c) args)
    (hfilled : Term.EquivalentArgs w.attributes f (filled c args) xs) :
    Reproduces w c (call whole head args) t := by
  obtain ⟨hm, hf, -⟩ := Term.markerFree_node.mp hsubject
  have hheadMarker := hhead.single hf.isMarker
  have hheadEq : Term.canonical w.attributes (head.template.substitute c) =
      Term.canonical w.attributes f := by
    have hrun := hhead.run
    rwa [Term.run_of_not_isMarker hheadMarker, hf.run, List.map_singleton, List.map_singleton,
      List.singleton_inj] at hrun
  have hsubst : (call whole head args).template.substitute c =
      .call (head.template.substitute c) (filled c args) := by
    rw [template, Term.substitute_call, templates_eq_map, List.flatMap_map]
    · rfl
    · rw [templates_eq_map]
      exact List.forall_mem_map.mpr hargs
  have heq : Term.canonical w.attributes ((call whole head args).template.substitute c) =
      Term.canonical w.attributes (.node i f xs) := by
    rw [hsubst]
    exact Term.canonical_call_congr hheadEq hfilled
  refine reproduces_of_canonical ht ?_ heq ⟨trivial, hhead.fits, hfits⟩
  rw [← Term.isMarker_canonical w.attributes, heq, Term.isMarker_canonical, hm]

/-- The head of a call that may take the arguments of a slot: its calls are no runs, and it groups
arguments only if it is flat. -/
structure TakesSlots (w : World) (f : Term) (flat : Option Term) : Prop where
  markerFree : ∀ items : List Term, (∀ x ∈ items, x.MarkerFree) → (Term.call f items).MarkerFree
  isFlat : ∀ g ∈ flat, g = f ∧ Term.isFlat w.attributes f = true

/-- The head of a call takes the slots of a pattern for the call. -/
theorem takesSlots_head (w : World) {i : Nat} {f : Term} {xs : List Term}
    (h : (Term.node i f xs).MarkerFree) :
    TakesSlots w f (if Term.isFlat w.attributes f then some f else none) where
  markerFree := by
    obtain ⟨hm, hf, -⟩ := Term.markerFree_node.mp h
    intro items hitems
    rw [Term.isMarker_node] at hm
    refine Term.markerFree_node.mpr ⟨?_, hf, hitems⟩
    rw [Term.isMarker_node, hm]
  isFlat := by
    intro g hg
    split at hg
    · next hflat => exact ⟨(Option.some.inj hg).symm, hflat⟩
    · cases hg

theorem TakesSlots.markerFree_of_mem {f : Term} {flat : Option Term} (h : TakesSlots w f flat)
    {items : List Term} (hitems : ∀ x ∈ items, x.MarkerFree) (s : Size) :
    ∀ x ∈ (s.value flat items).run, x.MarkerFree :=
  markerFree_of_mem_run_value s hitems fun g hg => (h.isFlat g hg).1 ▸ h.markerFree items hitems

/-- One more slot puts back what it took. -/
theorem equivalentArgs_filled_cons {f : Term} {flat : Option Term} (h : TakesSlots w f flat)
    {s : Size} {items rest args : List Term} (hitems : ∀ x ∈ items, x.MarkerFree)
    (hslot : Reproduces w c p (s.value flat items))
    (hrest : Term.EquivalentArgs w.attributes f (filled c ps ++ rest) args) :
    Term.EquivalentArgs w.attributes f (filled c (p :: ps) ++ rest) (items ++ args) := by
  have hone : Term.EquivalentArgs w.attributes f (p.template.substitute c).run items :=
    (Term.equivalentArgs_of_map_eq hslot.run).trans
      (equivalentArgs_run_value s hitems h.isFlat (h.markerFree items hitems))
  rw [filled, List.flatMap_cons, List.append_assoc]
  exact hone.append hrest

mutual

/-- A solution reproduces the term matched, under all later bindings. -/
theorem reproduces_of_mem_solutions (hc : ∀ x ∉ names, c.get? x = none) : ∀ (p : Pattern)
    {t : Term} {b b' : Bindings}, p.BuiltOfSlots names → p.Every ReadOffMarkerFree →
    (∀ x ∈ t.run, x.MarkerFree) → b' ∈ p.solutions w t b → c.strip.Extends b'.strip →
    Reproduces w c p t
  | atom a, t, b, b', hp, hread, _, h, _ => by
      rw [solutions, List.mem_ite_nil_right, any_single?_iff] at h
      obtain ⟨⟨x, ht, hxa⟩, -⟩ := h
      exact reproduces_atom hp hread hc ht hxa
  | named x p, t, b, b', hp, _, _, h, hext => by
      cases hx : b.get? x with
      | none =>
          obtain ⟨rfl, haccepts⟩ := (mem_solutions_named_first hp hx).mp h
          have hv : (b.push x t).get? x = some t := by simp [Bindings.get?_push, hx]
          obtain ⟨v, hv, hvt⟩ := hext.get? hv
          exact reproduces_named hp hv hvt haccepts
      | some v =>
          obtain ⟨heq, rfl, haccepts⟩ := (mem_solutions_named_again hp hx).mp h
          obtain ⟨u, hu, huv⟩ := hext.get? hx
          exact reproduces_named hp hu (huv.trans ((Term.beq_iff_strip v t).mp heq)) haccepts
  | call whole head args, t, b, b', hp, hread, hfree, h, hext => by
      obtain ⟨x, hx, hlit, hwx, -⟩ | ⟨i, f, xs, b₁, hx, hb₁, hslots⟩ := mem_solutions_call h
      · exact reproduces_constant hp hread.1 hc hlit (Term.single?_eq_some_iff.mp hx) hwx
      · have ht := Term.single?_eq_some_iff.mp hx
        have hsubject : (Term.node i f xs).MarkerFree := hfree _ (by simp [ht])
        obtain ⟨-, hf, hxs⟩ := Term.markerFree_node.mp hsubject
        have htemplates : ∀ p ∈ args, p.template.isMarker = false := fun p hpa =>
          isMarker_template (allBuiltOfSlots_iff.mp hp.2 p hpa)
            (allEvery_iff.mp hread.2.2 p hpa).here
        have hhead : c.strip.Extends b₁.strip → Reproduces w c head f := fun hext₁ =>
          reproduces_of_mem_solutions hc head hp.1 hread.2.1 (by simpa [hf.run] using hf) hb₁ hext₁
        have htakes := takesSlots_head w hsubject
        dsimp only at hslots
        rw [Term.headAttributes_node, ← Term.isFlat, ← Term.isOrderless] at hslots
        split at hslots
        · next horderless =>
            have hplaced : ∀ x ∈ xs.zipIdx, x.1.MarkerFree := fun x hx =>
              hxs _ (List.fst_mem_of_mem_zipIdx hx)
            obtain ⟨hfits, hfilled⟩ := filled_of_mem_fillingsAnywhere hc args hp.2 hread.2.2 htakes
              horderless hplaced hslots hext
            rw [List.map_nil, List.append_nil, List.zipIdx_map_fst] at hfilled
            exact reproduces_call htemplates ht hsubject
              (hhead (hext.trans (grown_of_mem_fillingsAnywhere args hslots).extends.strip)) hfits
              hfilled
        · obtain ⟨hfits, hfilled⟩ :=
            filled_of_mem_fillings hc args hp.2 hread.2.2 htakes hxs hslots hext
          rw [List.append_nil] at hfilled
          exact reproduces_call htemplates ht hsubject
            (hhead (hext.trans (grown_of_mem_fillings args hslots).extends.strip)) hfits hfilled
  | blank _, _, _, _, hp, _, _, _, _ | blankSequence _, _, _, _, hp, _, _, _, _
  | blankNullSequence _, _, _, _, hp, _, _, _, _ | condition _ _, _, _, _, hp, _, _, _, _
  | tested _ _, _, _, _, hp, _, _, _, _ | alternatives _, _, _, _, hp, _, _, _, _
  | repeated _ _ _ _, _, _, _, hp, _, _, _, _ | optional _ _, _, _, _, hp, _, _, _, _
  | hold _, _, _, _, hp, _, _, _, _ | longest _, _, _, _, hp, _, _, _, _
  | shortest _, _, _, _, hp, _, _, _, _ | literal _, _, _, _, hp, _, _, _, _
  | sequence _, _, _, _, hp, _, _, _, _ | except _, _, _, _, hp, _, _, _, _
  | exceptThen _ _, _, _, _, hp, _, _, _, _ => hp.elim

theorem filled_of_mem_fillings (hc : ∀ x ∉ names, c.get? x = none) : ∀ (ps : List Pattern)
    {f : Term} {flat : Option Term} {args rest : List Term} {b b' : Bindings},
    AllBuiltOfSlots names ps → AllEvery ReadOffMarkerFree ps → TakesSlots w f flat →
    (∀ x ∈ args, x.MarkerFree) → (b', rest) ∈ fillings w ps flat args b → c.strip.Extends b'.strip →
    AllEvery (SlotFits c) ps ∧ Term.EquivalentArgs w.attributes f (filled c ps ++ rest) args
  | [], f, flat, args, rest, b, b', _, _, _, _, h, _ => by
      rw [fillings, List.mem_singleton, Prod.mk.injEq] at h
      rw [h.2]
      exact ⟨trivial, Term.equivalentArgs_of_map_eq rfl⟩
  | p :: ps, f, flat, args, rest, b, b', hps, hread, htakes, hargs, h, hext => by
      obtain ⟨n, -, b₁, hb₁, hrest⟩ := mem_fillings_cons.mp h
      have hext₁ : c.strip.Extends b₁.strip :=
        hext.trans (grown_of_mem_fillings ps hrest).extends.strip
      have htake : ∀ x ∈ args.take n, x.MarkerFree := fun x hx => hargs x (List.mem_of_mem_take hx)
      have hdrop : ∀ x ∈ args.drop n, x.MarkerFree := fun x hx => hargs x (List.mem_of_mem_drop hx)
      have hslot := reproduces_of_mem_solutions hc p hps.1 hread.1
        (htakes.markerFree_of_mem htake _) hb₁ hext₁
      obtain ⟨hfits, hfilled⟩ := filled_of_mem_fillings hc ps hps.2 hread.2 htakes hdrop hrest hext
      have hcons := equivalentArgs_filled_cons htakes htake hslot hfilled
      rw [List.take_append_drop] at hcons
      exact ⟨⟨hslot.fits, hfits⟩, hcons⟩

theorem filled_of_mem_fillingsAnywhere (hc : ∀ x ∉ names, c.get? x = none) : ∀ (ps : List Pattern)
    {f : Term} {flat : Option Term} {free rest : List (Term × Nat)} {b b' : Bindings},
    AllBuiltOfSlots names ps → AllEvery ReadOffMarkerFree ps → TakesSlots w f flat →
    Term.isOrderless w.attributes f = true → (∀ x ∈ free, x.1.MarkerFree) →
    (b', rest) ∈ fillingsAnywhere w ps flat free b → c.strip.Extends b'.strip →
    AllEvery (SlotFits c) ps ∧
      Term.EquivalentArgs w.attributes f (filled c ps ++ rest.map (·.1)) (free.map (·.1))
  | [], f, flat, free, rest, b, b', _, _, _, _, _, h, _ => by
      rw [fillingsAnywhere, List.mem_singleton, Prod.mk.injEq] at h
      rw [h.2]
      exact ⟨trivial, Term.equivalentArgs_of_map_eq rfl⟩
  | p :: ps, f, flat, free, rest, b, b', hps, hread, htakes, horderless, hfree, h, hext => by
      obtain ⟨n, -, ch, hch, b₁, hb₁, hrest⟩ := mem_fillingsAnywhere_cons.mp h
      have hperm := (mem_choices hch).2
      have hext₁ : c.strip.Extends b₁.strip :=
        hext.trans (grown_of_mem_fillingsAnywhere ps hrest).extends.strip
      have htaken : ∀ x ∈ ch.1.map (·.1), x.MarkerFree := List.forall_mem_map.mpr fun x hx =>
        hfree x (hperm.subset (List.mem_append_left _ hx))
      have hleft : ∀ x ∈ ch.2, x.1.MarkerFree := fun x hx =>
        hfree x (hperm.subset (List.mem_append_right _ hx))
      have hslot := reproduces_of_mem_solutions hc p hps.1 hread.1
        (htakes.markerFree_of_mem htaken _) hb₁ hext₁
      obtain ⟨hfits, hfilled⟩ :=
        filled_of_mem_fillingsAnywhere hc ps hps.2 hread.2 htakes horderless hleft hrest hext
      have hcons := equivalentArgs_filled_cons htakes htaken hslot hfilled
      rw [← List.map_append] at hcons
      exact ⟨⟨hslot.fits, hfits⟩,
        hcons.trans (Term.equivalentArgs_of_perm horderless (hperm.map _))⟩

end

/-- Bindings that equal a solution, put into the template, give a term with the normal form of the
subject, and fit every slot. -/
theorem canonical_substitute_template {pattern subject : Term} {b : Bindings}
    (hslots : (ofTerm pattern).BuiltOfSlots (ofTerm pattern).names) (hpattern : pattern.MarkerFree)
    (hsubject : subject.MarkerFree) (hb : b ∈ (ofTerm pattern).solutions w subject .empty)
    (hcb : c.strip = b.strip) :
    Term.canonical w.attributes ((ofTerm pattern).template.substitute c) =
        Term.canonical w.attributes subject ∧
      (ofTerm pattern).Every (SlotFits c) := by
  have hread : (ofTerm pattern).Every ReadOffMarkerFree :=
    every_ofTerm (r := Term.MarkerFree) (fun _ _ _ h => (Term.markerFree_node.mp h).2) pattern
      hpattern
  have hunbound : ∀ x ∉ (ofTerm pattern).names, c.get? x = none := by
    intro x hx
    have hnone : b.get? x = none := (grown_of_mem_solutions _ hb).get?_eq_of_not_mem hx
    have hstrip := Bindings.get?_congr hcb x
    rwa [hnone, Option.map_none, Option.map_eq_none_iff] at hstrip
  have hfree : ∀ x ∈ subject.run, x.MarkerFree := by
    rw [hsubject.run]
    exact List.forall_mem_singleton.mpr hsubject
  have hresult := reproduces_of_mem_solutions hunbound _ hslots hread hfree hb
    (hcb ▸ Bindings.Extends.refl _)
  have hrun := hresult.run
  rw [Term.run_of_not_isMarker (hresult.single hsubject.isMarker), hsubject.run,
    List.map_singleton, List.map_singleton, List.singleton_inj] at hrun
  exact ⟨hrun, hresult.fits⟩

end Solutions

end Pattern

end Termwise
