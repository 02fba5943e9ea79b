import Termwise.Proofs.Pattern.FirstSolution
import Termwise.Proofs.Pattern.Shortcuts
import Termwise.Proofs.Pattern.Valid

/-!
# Termwise.Proofs.Pattern.Language

The runs of terms that a pattern accepts, when each name stands for itself:

```text
_ __ ___            one, one or more, any number (of a type)
sequence            runs of its parts, one after the other
repeated a..b       between a and b runs, one after the other
alternatives        a run of any of them
optional p, d       a run of p that is not empty, or the empty run if p accepts d
except no, p        a run of p that is not one of no
call                one call with an accepted head and an accepted run of arguments
```

A pattern whose names are all different has a solution for exactly the runs it
accepts (`exists_solution_iff`): no bound that cuts the search off loses a match.
-/

namespace Termwise

/-! ## rigid terms -/

/-- A term in which no call has a head that is flat or orderless. -/
def Term.Rigid (attrs : Symbol → Attributes) (t : Term) : Prop :=
  t.Every fun s => (s.headAttributes attrs).has .flat = false ∧
    (s.headAttributes attrs).has .orderless = false

instance (attrs : Symbol → Attributes) (t : Term) : Decidable (t.Rigid attrs) :=
  inferInstanceAs (Decidable (t.Every _))

/-- A term that stands for ordinary terms without flat or orderless heads. -/
structure Term.RigidRun (attrs : Symbol → Attributes) (t : Term) : Prop where
  ordinary : t.OrdinaryRun
  rigid : ∀ x ∈ t.run, x.Rigid attrs

instance (attrs : Symbol → Attributes) (t : Term) : Decidable (t.RigidRun attrs) :=
  decidable_of_iff (t.OrdinaryRun ∧ ∀ x ∈ t.run, x.Rigid attrs)
    ⟨fun h => ⟨h.1, h.2⟩, fun h => ⟨h.ordinary, h.rigid⟩⟩

/-- One ordinary term without flat or orderless heads. -/
theorem Term.Ordinary.rigidRun {attrs : Symbol → Attributes} {t : Term} (ho : t.Ordinary)
    (hr : t.Rigid attrs) : t.RigidRun attrs :=
  ⟨ho.ordinaryRun, by simpa [ho.run] using hr⟩

/-- Ordinary arguments without flat or orderless heads, of a number that a machine word holds. -/
structure RigidItems (attrs : Symbol → Attributes) (items : List Term) : Prop where
  fits : items.length ≤ Pattern.unbounded
  ordinary : ∀ x ∈ items, x.Ordinary
  rigid : ∀ x ∈ items, x.Rigid attrs

namespace RigidItems

variable {attrs : Symbol → Attributes} {items : List Term}

theorem sublist (h : RigidItems attrs items) {some : List Term} (hsub : some.Sublist items) :
    RigidItems attrs some where
  fits := Nat.le_trans hsub.length_le h.fits
  ordinary := fun x hx => h.ordinary x (hsub.subset hx)
  rigid := fun x hx => h.rigid x (hsub.subset hx)

theorem take (h : RigidItems attrs items) (n : Nat) : RigidItems attrs (items.take n) :=
  h.sublist (List.take_sublist n items)

theorem drop (h : RigidItems attrs items) (n : Nat) : RigidItems attrs (items.drop n) :=
  h.sublist (List.drop_sublist n items)

/-- The value of a slot outside of flat calls stands for what it was made from. -/
theorem run_value (h : RigidItems attrs items) (s : Size) : (s.value none items).run = items :=
  s.run_value fun x hx => (h.ordinary x hx).isMarker

theorem rigidRun_value (h : RigidItems attrs items) (s : Size) :
    (s.value none items).RigidRun attrs where
  ordinary := s.ordinaryRun_value h.fits h.ordinary (by simp)
  rigid := by
    rw [h.run_value]
    exact h.rigid

theorem rigidRun_marker (h : RigidItems attrs items) : (Term.marker items).RigidRun attrs :=
  ⟨⟨h.fits, h.ordinary⟩, h.rigid⟩

end RigidItems

theorem Term.RigidRun.items {attrs : Symbol → Attributes} {t : Term} (h : t.RigidRun attrs) :
    RigidItems attrs t.run :=
  ⟨h.ordinary.fits, h.ordinary.each, h.rigid⟩

/-- The arguments of a call among rigid terms. -/
theorem Term.RigidRun.args {attrs : Symbol → Attributes} {t : Term} (h : t.RigidRun attrs) {i : Nat}
    {f : Term} {xs : List Term} (ht : t.run = [.node i f xs]) : RigidItems attrs xs := by
  have hcall : Term.node i f xs ∈ t.run := by simp [ht]
  have ho := h.ordinary.each _ hcall
  exact ⟨ho.length_le, ho.args, (Term.every_node.mp (h.rigid _ hcall)).2.2⟩

/-- The head of a call among rigid terms. -/
theorem Term.RigidRun.head {attrs : Symbol → Attributes} {t : Term} (h : t.RigidRun attrs) {i : Nat}
    {f : Term} {xs : List Term} (ht : t.run = [.node i f xs]) : f.RigidRun attrs := by
  have hcall : Term.node i f xs ∈ t.run := by simp [ht]
  exact (h.ordinary.each _ hcall).head.rigidRun (Term.every_node.mp (h.rigid _ hcall)).2.1

namespace Pattern

/-! ## accepted runs -/

mutual

/-- Whether a pattern accepts a run of terms. -/
def Accepts : Pattern → List Term → Prop
  | atom a, xs | literal a, xs => ∃ x, xs = [x] ∧ (x == a) = true
  | blank type, xs => ∃ x, xs = [x] ∧ x.hasType type = true
  | blankSequence type, xs => xs ≠ [] ∧ ∀ x ∈ xs, x.hasType type = true
  | blankNullSequence type, xs => ∀ x ∈ xs, x.hasType type = true
  | named _ p, xs | condition p _, xs | tested p _, xs | hold p, xs | longest p, xs
  | shortest p, xs => p.Accepts xs
  | alternatives ps, xs => AcceptedByAny ps xs
  | repeated p _ least most, xs =>
    ∃ runs : List (List Term), xs = runs.flatten ∧ (∀ run ∈ runs, p.Accepts run) ∧
      least ≤ runs.length ∧ runs.length ≤ most
  | optional p default, xs =>
    (xs ≠ [] ∧ p.Accepts xs) ∨ (xs = [] ∧ ∃ d, default = some d ∧ p.Accepts d.run)
  | sequence ps, xs => AcceptsEach ps xs
  | except no, xs => (∃ x, xs = [x]) ∧ ¬ no.Accepts xs
  | exceptThen no p, xs => p.Accepts xs ∧ ¬ no.Accepts xs
  | call _ head args, xs =>
    ∃ i f ys, xs = [Term.node i f ys] ∧ head.Accepts [f] ∧ AcceptsEach args ys

/-- Whether a run of terms consists of runs that patterns accept, one after the other. -/
def AcceptsEach : List Pattern → List Term → Prop
  | [], xs => xs = []
  | p :: ps, xs => ∃ ys zs, xs = ys ++ zs ∧ p.Accepts ys ∧ AcceptsEach ps zs

/-- Whether one of several patterns accepts a run of terms. -/
def AcceptedByAny : List Pattern → List Term → Prop
  | [], _ => False
  | p :: ps, xs => p.Accepts xs ∨ AcceptedByAny ps xs

end

/-! ## sizes before anything is bound -/

mutual

/-- A pattern has the size it has at first as long as none of its names is bound. -/
theorem size_of_fresh {b : Bindings} : ∀ (p : Pattern) (flat : Option Term), b.Fresh p.names →
    p.size flat b = p.size flat .empty
  | named x p, flat, h => by
      have hp := size_of_fresh p flat (h.mono (List.subset_cons_self _ _))
      simp only [size, hp, h x List.mem_cons_self, Bindings.get?_empty]
  | condition p _, flat, h | tested p _, flat, h | hold p, flat, h | longest p, flat, h
  | shortest p, flat, h | optional p _, flat, h => by
      simp only [size, size_of_fresh p flat h]
  | exceptThen _ p, flat, h => by
      simp only [size, size_of_fresh p flat (h.mono (List.subset_append_right _ _))]
  | repeated p _ _ _, flat, h => by
      simp only [size, size_of_fresh p none h]
  | alternatives ps, flat, h => by
      simp only [size, sizes_of_fresh ps flat h]
  | sequence ps, flat, h => by
      simp only [size, sizes_of_fresh ps none h]
  | blank _, _, _ | blankSequence _, _, _ | blankNullSequence _, _, _ | except _, _, _
  | literal _, _, _ | call _ _ _, _, _ | atom _, _, _ => rfl

theorem sizes_of_fresh {b : Bindings} : ∀ (ps : List Pattern) (flat : Option Term),
    b.Fresh (namesOfAll ps) → sizes flat b ps = sizes flat .empty ps
  | [], _, _ => rfl
  | p :: ps, flat, h => by
      rw [sizes, sizes, size_of_fresh p flat (h.mono (List.subset_append_left _ _)),
        sizes_of_fresh ps flat (h.mono (List.subset_append_right _ _))]

end

/-! ## regular patterns -/

/-- A form whose solutions depend on the accepted runs alone: there are no tests, defaults are
given and are what subjects are, and what is repeated binds no name and takes some argument. -/
def Regular (attrs : Symbol → Attributes) : Pattern → Prop
  | condition _ _ | tested _ _ | optional _ none => False
  | optional _ (some d) => d.RigidRun attrs
  | repeated p _ _ _ => p.names = [] ∧ (p.size none .empty).least ≠ 0
  | _ => True

/-- A form whose default, if it has one, is what subjects are. -/
def RigidDefault (attrs : Symbol → Attributes) : Pattern → Prop
  | optional _ (some d) => d.RigidRun attrs
  | _ => True

instance (attrs : Symbol → Attributes) : DecidablePred (RigidDefault attrs)
  | optional _ (some d) => inferInstanceAs (Decidable (d.RigidRun attrs))
  | optional _ none | condition _ _ | tested _ _ | blank _ | blankSequence _ | blankNullSequence _
  | named _ _ | alternatives _ | repeated _ _ _ _ | hold _ | longest _ | shortest _ | literal _
  | sequence _ | except _ | exceptThen _ _ | call _ _ _ | atom _ => inferInstanceAs (Decidable True)

/-- A form that repeats only what binds no name. -/
def UnnamedRepeat : Pattern → Prop
  | repeated p _ _ _ => p.names = []
  | _ => True

instance : DecidablePred UnnamedRepeat
  | repeated p _ _ _ => inferInstanceAs (Decidable (p.names = []))
  | optional _ _ | condition _ _ | tested _ _ | blank _ | blankSequence _ | blankNullSequence _
  | named _ _ | alternatives _ | hold _ | longest _ | shortest _ | literal _ | sequence _
  | except _ | exceptThen _ _ | call _ _ _ | atom _ => inferInstanceAs (Decidable True)

theorem RigidDefault.ordinaryDefault {attrs : Symbol → Attributes} {p : Pattern}
    (h : RigidDefault attrs p) : OrdinaryDefault p := by
  cases p with
  | optional p d =>
      cases d with
      | some d => exact h.ordinary
      | none => trivial
  | _ => trivial

theorem regular_of {attrs : Symbol → Attributes} {p : Pattern} (hsettled : Settled False p)
    (hdefault : RigidDefault attrs p) (hunnamed : UnnamedRepeat p) (hnonempty : NonemptyRepeat p) :
    Regular attrs p := by
  cases p with
  | condition _ _ => exact hsettled
  | tested _ _ => exact hsettled
  | repeated _ _ _ _ => exact ⟨hunnamed, hnonempty⟩
  | optional _ d =>
      cases d with
      | none => exact hsettled
      | some d => exact hdefault
  | _ => trivial

section Solutions

variable {w : World}

/-! ### repetitions -/

section Repetitions

variable {size : Bindings → Size} {accepts : List Term → Prop}
  {one : Term → Bindings → List Bindings} {least most : Nat}

/-- Repetitions cut the items into accepted runs. -/
theorem exists_runs_of_mem_repetitions
    (hone : ∀ {t : Term}, t.RigidRun w.attributes → ∀ {b b'}, b' ∈ one t b → accepts t.run) :
    ∀ (items : List Term) (count : Nat) (b b' : Bindings),
      b' ∈ repetitions size one least most items count b → RigidItems w.attributes items →
      count ≤ most →
      ∃ runs : List (List Term), items = runs.flatten ∧ (∀ run ∈ runs, accepts run) ∧
        least ≤ count + runs.length ∧ count + runs.length ≤ most := by
  refine repetitions_induct
    (fun count b hle _ hmost => ⟨[], rfl, by simp, by simpa using hle, by simpa using hmost⟩) ?_
  intro items count b n b₁ b' hlt _ _ hb₁ ih hitems _
  obtain ⟨runs, hruns, haccepts, hk⟩ := ih (hitems.drop n) hlt
  have hfirst := hone ((hitems.take n).rigidRun_value _) hb₁
  rw [(hitems.take n).run_value] at hfirst
  refine ⟨items.take n :: runs, ?_, List.forall_mem_cons.mpr ⟨hfirst, haccepts⟩, ?_⟩
  · rw [List.flatten_cons, ← hruns, List.take_append_drop]
  · rw [List.length_cons]
    omega

/-- Items that can be cut into accepted runs can be read as repetitions. -/
theorem exists_repetition_of_runs
    (hone : ∀ {t : Term}, t.RigidRun w.attributes → accepts t.run → ∀ b, ∃ b', b' ∈ one t b)
    (hsize : ∀ {xs : List Term}, RigidItems w.attributes xs → accepts xs →
      ∀ b, (size b).Allows xs.length ∧ xs ≠ []) (runs : List (List Term)) :
    ∀ (count : Nat) (b : Bindings), RigidItems w.attributes runs.flatten →
      (∀ run ∈ runs, accepts run) → least ≤ count + runs.length → count + runs.length ≤ most →
      ∃ b', b' ∈ repetitions size one least most runs.flatten count b := by
  induction runs with
  | nil =>
      intro count b _ _ hleast _
      exact ⟨b, mem_repetitions.mpr (.inl ⟨rfl, hleast, rfl⟩)⟩
  | cons run runs ih =>
      intro count b hitems haccepts hleast hmost
      rw [List.length_cons] at hleast hmost
      rw [List.flatten_cons] at hitems ⊢
      obtain ⟨hrun, hruns⟩ := List.forall_mem_cons.mp haccepts
      have hfirst : RigidItems w.attributes run := hitems.sublist (List.sublist_append_left _ _)
      have hrest : RigidItems w.attributes runs.flatten :=
        hitems.sublist (List.sublist_append_right _ _)
      obtain ⟨hallows, hne⟩ := hsize hfirst hrun b
      have hpos := List.length_pos_iff.mpr hne
      have hcount : run.length ∈ (size b).counts (run ++ runs.flatten).length :=
        Size.mem_counts.mpr ⟨hallows.1, hallows.2, by simp⟩
      obtain ⟨b₁, hb₁⟩ := hone (hfirst.rigidRun_value (size b)) (by rwa [hfirst.run_value]) b
      obtain ⟨b', hb'⟩ := ih (count + 1) b₁ hrest hruns (by omega) (by omega)
      refine ⟨b', mem_repetitions.mpr (.inr ⟨by simp [hne], by omega, run.length, hcount, by omega,
        b₁, ?_, ?_⟩)⟩
      · rwa [List.take_left]
      · rwa [List.drop_left]

end Repetitions

/-! ### all patterns -/

theorem any_single?_iff {t : Term} {q : Term → Bool} :
    t.single?.any q = true ↔ ∃ x, t.run = [x] ∧ q x = true := by
  simp only [Option.any_eq_true_iff_get, ← Term.single?_eq_some_iff]
  constructor
  · rintro ⟨h, hq⟩
    exact ⟨_, Option.some_get h |>.symm, hq⟩
  · rintro ⟨x, hx, hq⟩
    simp [hx, hq]

theorem isEmpty_iff_not_exists {α : Type} {l : List α} :
    l.isEmpty = true ↔ ¬ ∃ x, x ∈ l := by
  simp [List.isEmpty_iff, List.eq_nil_iff_forall_not_mem]

/-- What a repeated pattern accepts is within its size and not empty. -/
theorem allows_of_accepted_repeat {p : Pattern} {bounds : Option Term} {least most : Nat}
    (hp : Regular w.attributes (repeated p bounds least most))
    (hone : ∀ {t : Term}, t.RigidRun w.attributes → ∀ b,
      (∃ b', b' ∈ p.solutions w t b) ↔ p.Accepts t.run) {xs : List Term}
    (hxs : RigidItems w.attributes xs) (haccepts : p.Accepts xs) (b : Bindings) :
    (p.size none b).Allows xs.length ∧ xs ≠ [] := by
  obtain ⟨hnone, hpositive⟩ := hp
  have hmarker := hxs.rigidRun_marker
  obtain ⟨b', hb'⟩ := (hone hmarker b).mpr haccepts
  have hallows := allows_of_mem_solutions p hmarker.ordinary (.refl b) hb'
  rw [Term.run_marker] at hallows
  refine ⟨hallows, fun hnil => hpositive ?_⟩
  rw [hnil, size_of_fresh p none (by simp [hnone, Bindings.Fresh])] at hallows
  exact Nat.le_zero.mp hallows.1

/-- A call without flat or orderless heads is matched part by part. -/
theorem exists_call_iff (hw : w.shortcuts = false) {whole t : Term} {head : Pattern}
    {args : List Pattern} {b : Bindings} (ht : t.RigidRun w.attributes)
    (hhead : ∀ {i f xs}, t.run = [Term.node i f xs] →
      ((∃ b₁, b₁ ∈ head.solutions w f b) ↔ head.Accepts [f]))
    (hrest : ∀ {i f xs b₁}, t.run = [Term.node i f xs] → b₁ ∈ head.solutions w f b →
      ((∃ b', (b', []) ∈ fillings w args none xs b₁) ↔ AcceptsEach args xs)) :
    (∃ b', b' ∈ (call whole head args).solutions w t b) ↔
      (call whole head args).Accepts t.run := by
  have hslots : ∀ {i f xs}, t.run = [Term.node i f xs] → ∀ b₁ b',
      ((let attrs := (Term.node i f xs).headAttributes w.attributes
        let flat := if attrs.has .flat then some f else none
        if attrs.has .orderless then (b', []) ∈ fillingsAnywhere w args flat xs.zipIdx b₁
        else (b', []) ∈ fillings w args flat xs b₁) ↔ (b', []) ∈ fillings w args none xs b₁) := by
    intro i f xs hrun b₁ b'
    have hr : (Term.node i f xs).Rigid w.attributes := ht.rigid _ (by simp [hrun])
    simp only [hr.here.1, hr.here.2, Bool.false_eq_true, if_false]
  rw [Accepts]
  simp only [mem_solutions_call_iff hw, Term.single?_eq_some_iff]
  constructor
  · rintro ⟨b', i, f, xs, b₁, hrun, hb₁, hb'⟩
    exact ⟨i, f, xs, hrun, (hhead hrun).mp ⟨b₁, hb₁⟩,
      (hrest hrun hb₁).mp ⟨b', (hslots hrun b₁ b').mp hb'⟩⟩
  · rintro ⟨i, f, xs, hrun, hf, hxs⟩
    obtain ⟨b₁, hb₁⟩ := (hhead hrun).mpr hf
    obtain ⟨b', hb'⟩ := (hrest hrun hb₁).mpr hxs
    exact ⟨b', i, f, xs, b₁, hrun, hb₁, (hslots hrun b₁ b').mpr hb'⟩

mutual

/-- A regular pattern with different names has a solution for exactly the runs it accepts. -/
theorem exists_solution_iff (hw : w.shortcuts = false) : ∀ (p : Pattern),
    p.Every (Regular w.attributes) → p.names.Nodup → ∀ {t : Term}, t.RigidRun w.attributes →
      ∀ {b : Bindings}, b.Fresh p.names → ((∃ b', b' ∈ p.solutions w t b) ↔ p.Accepts t.run)
  | atom a, _, _, t, _, b, _ | literal a, _, _, t, _, b, _ => by
      simp only [solutions, Accepts, List.mem_ite_nil_right, any_single?_iff, List.mem_singleton]
      simp
  | blank type, _, _, t, _, b, _ => by
      simp only [solutions, Accepts, List.mem_ite_nil_right, any_single?_iff, List.mem_singleton]
      simp
  | blankSequence type, _, _, t, _, b, _ | blankNullSequence type, _, _, t, _, b, _ => by
      simp [solutions, Accepts, List.mem_ite_nil_right]
  | named x p, hp, hnames, t, ht, b, hb => by
      obtain ⟨hx, hnames⟩ := List.nodup_cons.mp hnames
      rw [solutions, Accepts]
      simp only [hb x List.mem_cons_self]
      exact exists_solution_iff hw p hp.2 hnames ht
        (Bindings.Fresh.push (hb.mono (List.subset_cons_self _ _)) hx t)
  | condition _ _, hp, _, _, _, _, _ | tested _ _, hp, _, _, _, _, _
  | optional _ none, hp, _, _, _, _, _ => hp.1.elim
  | hold p, hp, hnames, t, ht, b, hb | longest p, hp, hnames, t, ht, b, hb
  | shortest p, hp, hnames, t, ht, b, hb => by
      rw [solutions, Accepts]
      exact exists_solution_iff hw p hp.2 hnames ht hb
  | optional p (some d), hp, hnames, t, ht, b, hb => by
      rw [solutions, Accepts]
      by_cases hempty : t.run = []
      · rw [if_pos (Term.run_eq_nil_iff.mp hempty)]
        simpa [hempty] using exists_solution_iff hw p hp.2 hnames hp.1 hb
      · rw [if_neg fun h => hempty (Term.run_eq_nil_iff.mpr h)]
        simpa [hempty] using exists_solution_iff hw p hp.2 hnames ht hb
  | alternatives ps, hp, hnames, t, ht, b, hb => by
      rw [solutions, Accepts]
      exact exists_solutionOfAny_iff hw ps hp.2 hnames ht hb
  | sequence ps, hp, hnames, t, ht, b, hb => by
      rw [solutions, Accepts]
      simp only [mem_complete]
      exact exists_filling_iff hw ps hp.2 hnames ht.items hb
  | except no, hp, hnames, t, ht, b, hb => by
      have hno := exists_solution_iff hw no hp.2 hnames ht hb
      have hsome : t.single?.isSome = true ↔ ∃ x, t.run = [x] := by
        simp only [Option.isSome_iff_exists, Term.single?_eq_some_iff]
      rw [solutions, Accepts, ← hno]
      simp only [List.mem_ite_nil_right, Bool.and_eq_true, hsome, isEmpty_iff_not_exists,
        List.mem_singleton, exists_and_left, exists_eq, and_true]
      exact and_comm
  | exceptThen no p, hp, hnames, t, ht, b, hb => by
      obtain ⟨hnamesNo, hnamesP, -⟩ := List.nodup_append.mp hnames
      have hno := exists_solution_iff hw no hp.2.1 hnamesNo ht
        (hb.mono (List.subset_append_left _ _))
      have hyes := exists_solution_iff hw p hp.2.2 hnamesP ht
        (hb.mono (List.subset_append_right _ _))
      rw [solutions, Accepts, ← hno, ← hyes]
      simp only [List.mem_ite_nil_right, isEmpty_iff_not_exists, exists_and_left]
      exact and_comm
  | repeated p _ least most, hp, hnames, t, ht, b, hb => by
      have hone : ∀ {t : Term}, t.RigidRun w.attributes → ∀ b,
          (∃ b', b' ∈ p.solutions w t b) ↔ p.Accepts t.run := fun ht b =>
        exists_solution_iff hw p hp.2 (by simp [hp.1.1]) ht (by simp [hp.1.1, Bindings.Fresh])
      rw [solutions, Accepts]
      constructor
      · rintro ⟨b', hb'⟩
        obtain ⟨runs, hruns, haccepts, hleast, hmost⟩ :=
          exists_runs_of_mem_repetitions (fun ht _ b' h => (hone ht _).mp ⟨b', h⟩) _ _ _ _ hb'
            ht.items (Nat.zero_le most)
        exact ⟨runs, hruns, haccepts, by simpa using hleast, by simpa using hmost⟩
      · rintro ⟨runs, hruns, haccepts, hleast, hmost⟩
        rw [hruns]
        exact exists_repetition_of_runs (fun ht h b => (hone ht b).mpr h)
          (allows_of_accepted_repeat hp.1 hone) runs 0 b (hruns ▸ ht.items) haccepts
          (by simpa using hleast) (by simpa using hmost)
  | call whole head args, hp, hnames, t, ht, b, hb => by
      obtain ⟨hnamesHead, hnamesArgs, hdisjoint⟩ := List.nodup_append.mp hnames
      refine exists_call_iff hw ht (fun {i f xs} hrun => ?_) fun hrun hb₁ => ?_
      · have ho : (Term.node i f xs).Ordinary := ht.ordinary.each _ (by simp [hrun])
        rw [exists_solution_iff hw head hp.2.1 hnamesHead (ht.head hrun)
          (hb.mono (List.subset_append_left _ _)), ho.head.run]
      · refine exists_filling_iff hw args hp.2.2 hnamesArgs (ht.args hrun) ?_
        exact (hb.mono (List.subset_append_right _ _)).of_grown (grown_of_mem_solutions head hb₁)
          fun x hx hx' => hdisjoint x hx' x hx rfl

theorem exists_solutionOfAny_iff (hw : w.shortcuts = false) : ∀ (ps : List Pattern),
    AllEvery (Regular w.attributes) ps → (namesOfAll ps).Nodup →
      ∀ {t : Term}, t.RigidRun w.attributes → ∀ {b : Bindings}, b.Fresh (namesOfAll ps) →
        ((∃ b', b' ∈ solutionsOfAny w ps t b) ↔ AcceptedByAny ps t.run)
  | [], _, _, _, _, _, _ => by simp [solutionsOfAny, AcceptedByAny]
  | p :: ps, hp, hnames, t, ht, b, hb => by
      obtain ⟨hnamesP, hnamesPs, -⟩ := List.nodup_append.mp hnames
      rw [AcceptedByAny, solutionsOfAny,
        ← exists_solution_iff hw p hp.1 hnamesP ht (hb.mono (List.subset_append_left _ _)),
        ← exists_solutionOfAny_iff hw ps hp.2 hnamesPs ht (hb.mono (List.subset_append_right _ _))]
      simp only [List.mem_append, exists_or]

theorem exists_filling_iff (hw : w.shortcuts = false) : ∀ (ps : List Pattern),
    AllEvery (Regular w.attributes) ps → (namesOfAll ps).Nodup → ∀ {args : List Term},
      RigidItems w.attributes args → ∀ {b : Bindings}, b.Fresh (namesOfAll ps) →
        ((∃ b', (b', []) ∈ fillings w ps none args b) ↔ AcceptsEach ps args)
  | [], _, _, args, _, b, _ => by
      simp [fillings, AcceptsEach, eq_comm]
  | p :: ps, hp, hnames, args, hargs, b, hb => by
      obtain ⟨hnamesP, hnamesPs, hdisjoint⟩ := List.nodup_append.mp hnames
      have hfreshP : b.Fresh p.names := hb.mono (List.subset_append_left _ _)
      have hrest : ∀ {n b₁ t}, b₁ ∈ p.solutions w t b →
          ((∃ b', (b', []) ∈ fillings w ps none (args.drop n) b₁) ↔
            AcceptsEach ps (args.drop n)) := by
        intro n b₁ t hb₁
        refine exists_filling_iff hw ps hp.2 hnamesPs (hargs.drop n) ?_
        exact (hb.mono (List.subset_append_right _ _)).of_grown (grown_of_mem_solutions p hb₁)
          fun x hx hx' => hdisjoint x hx' x hx rfl
      have hfirst : ∀ n, (∃ b₁, b₁ ∈ p.solutions w ((p.size none b).value none (args.take n)) b) ↔
          p.Accepts (args.take n) := by
        intro n
        rw [exists_solution_iff hw p hp.1 hnamesP ((hargs.take n).rigidRun_value _) hfreshP,
          (hargs.take n).run_value]
      rw [AcceptsEach]
      constructor
      · rintro ⟨b', hb'⟩
        obtain ⟨n, -, b₁, hb₁, hb'⟩ := mem_fillings_cons.mp hb'
        exact ⟨args.take n, args.drop n, (List.take_append_drop n args).symm,
          (hfirst n).mp ⟨b₁, hb₁⟩, (hrest hb₁).mp ⟨b', hb'⟩⟩
      · rintro ⟨ys, zs, rfl, hys, hzs⟩
        have htake : (ys ++ zs).take ys.length = ys := by simp
        have hdrop : (ys ++ zs).drop ys.length = zs := by simp
        obtain ⟨b₁, hb₁⟩ := (hfirst ys.length).mpr (htake.symm ▸ hys)
        obtain ⟨b', hb'⟩ := (hrest hb₁).mpr (hdrop.symm ▸ hzs)
        have hallows := allows_of_mem_solutions p
          ((hargs.take ys.length).rigidRun_value _).ordinary (.refl b) hb₁
        rw [(hargs.take ys.length).run_value, htake] at hallows
        exact ⟨b', mem_fillings_cons.mpr ⟨ys.length,
          Size.mem_counts.mpr ⟨hallows.1, hallows.2, by simp⟩, b₁, hb₁, hb'⟩⟩

end

end Solutions

end Pattern

end Termwise
