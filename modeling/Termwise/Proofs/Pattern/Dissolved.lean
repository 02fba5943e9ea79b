import Termwise.Proofs.Pattern.Fits
import Termwise.Proofs.Pattern.Template

/-!
# Termwise.Proofs.Pattern.Dissolved

Where runs of terms stand in bindings, and what substitution makes of them.  A match of terms
without runs binds every name to a term that stands for terms without runs: to one of them, or to a
run of them (`markerFree_of_fits`).  Substitution dissolves a run wherever its name is an argument
(`dissolved_substitute`); a run that is left heads a call, or is the whole result
(`markerFree_substitute`).
-/

namespace Termwise

namespace Pattern

/-! ## terms inside pattern syntax -/

/-- The terms right inside a form that are not read as patterns. -/
def terms : Pattern → List Term
  | blank type | blankSequence type | blankNullSequence type => type.toList
  | condition _ t | tested _ t | literal t => [t]
  | repeated _ bounds _ _ => bounds.toList
  | optional _ default => default.toList
  | named _ _ | alternatives _ | hold _ | longest _ | shortest _ | sequence _ | except _
  | exceptThen _ _ | call _ _ _ | atom _ => []

/-- The terms inside pattern syntax are arguments. -/
theorem mem_of_mem_terms {s : Symbol} {args : List Term} {read : List Pattern} {p : Pattern}
    (h : form? s args read = some p) : ∀ t ∈ p.terms, t ∈ args := by
  revert h
  unfold form?
  repeat'
    refine iteInduction (motive := fun x => x = some p → ∀ t ∈ p.terms, t ∈ args)
      (fun _ => ?_) fun _ => ?_
  all_goals
    try split
    all_goals
      intro h
      first
      | cases h
      | obtain ⟨_, -, rfl⟩ := Option.map_eq_some_iff.mp h
  all_goals simp [terms]

end Pattern

namespace Term

theorem markerFree_of_mem_terms {s d : Term} (hs : s.MarkerFree)
    (hd : d ∈ (Pattern.ofTerm s).terms) : d.MarkerFree := by
  cases s with
  | node i f xs =>
      obtain ⟨r, p, -, hform, hp⟩ | hcall := Pattern.ofTerm_node i f xs
      · rw [hp] at hd
        exact (markerFree_node.mp hs).2.2 d (Pattern.mem_of_mem_terms hform d hd)
      · rw [hcall] at hd
        cases hd
  | _ => cases hd

/-! ## conditions without identities -/

mutual

/-- A condition that does not depend on identities holds all over equal terms. -/
theorem every_strip {q : Term → Prop} (h : ∀ t : Term, q t.strip ↔ q t) :
    ∀ t : Term, t.strip.Every q ↔ t.Every q
  | .node i f xs => and_congr (h (.node i f xs)) (and_congr (every_strip h f) (allEvery_strip h xs))
  | .magic m => h (.magic m)
  | .int n => h (.int n)
  | .float x => h (.float x)
  | .text s => h (.text s)
  | .symbol s => h (.symbol s)
  | .host o => h (.host o)

theorem allEvery_strip {q : Term → Prop} (h : ∀ t : Term, q t.strip ↔ q t) :
    ∀ ts : List Term, AllEvery q (stripAll ts) ↔ AllEvery q ts
  | [] => .rfl
  | t :: ts => and_congr (every_strip h t) (allEvery_strip h ts)

end

theorem markerFree_congr {s t : Term} (h : s.strip = t.strip) : s.MarkerFree ↔ t.MarkerFree := by
  have hstrip : ∀ t : Term, t.strip.isMarker = false ↔ t.isMarker = false := fun t => by
    rw [isMarker_strip]
  rw [MarkerFree, ← every_strip hstrip, h, every_strip hstrip, MarkerFree]

/-! ## terms whose runs are dissolved -/

/-- A term in which no argument is a run. -/
def Dissolved (t : Term) : Prop := t.Every fun s => ∀ x ∈ s.args, x.isMarker = false

theorem dissolved_node {i : Nat} {f : Term} {xs : List Term} :
    (node i f xs).Dissolved ↔
      (∀ x ∈ xs, x.isMarker = false) ∧ f.Dissolved ∧ ∀ x ∈ xs, x.Dissolved :=
  every_node

theorem dissolved_congr {s t : Term} (h : s.strip = t.strip) : s.Dissolved ↔ t.Dissolved := by
  have hstrip : ∀ t : Term, (∀ x ∈ t.strip.args, x.isMarker = false) ↔
      ∀ x ∈ t.args, x.isMarker = false := fun t => by
    simp only [args_strip, List.forall_mem_map, isMarker_strip]
  rw [Dissolved, ← every_strip hstrip, h, every_strip hstrip, Dissolved]

theorem MarkerFree.dissolved : ∀ {t : Term}, t.MarkerFree → t.Dissolved
  | .node _ _ _, h => by
      obtain ⟨-, hf, hxs⟩ := markerFree_node.mp h
      exact dissolved_node.mpr
        ⟨fun x hx => (hxs x hx).isMarker, hf.dissolved, fun x hx => (hxs x hx).dissolved⟩
  | .magic _, _ | .int _, _ | .float _, _ | .text _, _ | .symbol _, _ | .host _, _ => nofun

/-- What a term stands for has its runs dissolved, and is no run. -/
theorem Dissolved.run {t : Term} (h : t.Dissolved) :
    ∀ x ∈ t.run, x.isMarker = false ∧ x.Dissolved := by
  unfold Term.run
  cases hm : t.isMarker with
  | false => simpa using ⟨hm, h⟩
  | true =>
      cases t with
      | node i f xs =>
          obtain ⟨hxs, -, hdissolved⟩ := dissolved_node.mp h
          exact fun x hx => ⟨hxs x hx, hdissolved x hx⟩
      | _ => cases hm

/-- A term that stands for terms without runs. -/
def MarkerFreeRun (t : Term) : Prop := ∀ x ∈ t.run, x.MarkerFree

theorem MarkerFree.markerFreeRun {t : Term} (h : t.MarkerFree) : t.MarkerFreeRun := by
  rw [MarkerFreeRun, h.run]
  exact List.forall_mem_singleton.mpr h

theorem MarkerFreeRun.of_isMarker {t : Term} (h : t.MarkerFreeRun) (ht : t.isMarker = false) :
    t.MarkerFree := h t (by rw [run_of_not_isMarker ht]; exact List.mem_cons_self)

theorem isMarker_eq_true {t : Term} (h : t.isMarker = true) :
    ∃ i xs, t = node i (.magic .sequence) xs := by
  match t, h with
  | .node i (.magic .sequence) xs, _ => exact ⟨i, xs, rfl⟩

theorem MarkerFreeRun.dissolved {t : Term} (h : t.MarkerFreeRun) : t.Dissolved := by
  cases hm : t.isMarker with
  | false => exact (h.of_isMarker hm).dissolved
  | true =>
      obtain ⟨i, xs, rfl⟩ := isMarker_eq_true hm
      exact dissolved_node.mpr
        ⟨fun x hx => (h x hx).isMarker, nofun, fun x hx => (h x hx).dissolved⟩

theorem markerFreeRun_congr {s t : Term} (h : s.strip = t.strip) :
    s.MarkerFreeRun ↔ t.MarkerFreeRun := by
  have hrun : ∀ t : Term, t.MarkerFreeRun ↔ ∀ x ∈ t.strip.run, x.MarkerFree := fun t => by
    simp only [MarkerFreeRun, run_strip, List.forall_mem_map]
    exact forall₂_congr fun x _ => markerFree_congr (strip_strip x).symm
  rw [hrun, h, ← hrun]

/-! ## substitution -/

/-- Substitution goes into a call without runs part by part. -/
theorem exists_substitute_node (b : Bindings) (i : Nat) (f : Term) {xs : List Term}
    (h : ∀ x ∈ xs, x.isMarker = false) :
    ∃ j, (node i f xs).substitute b =
      node j (f.substitute b) (xs.flatMap fun x => (x.substitute b).run) := by
  rw [← spliceArgs_eq_flatMap, ← substituteArgs?_getD h, substitute, substitute?, substitute]
  cases f.substitute? b with
  | some new => exact ⟨0, by rw [substituteArgs?_getD h]; rfl⟩
  | none => cases substituteArgs? b xs <;> exact ⟨_, rfl⟩

end Term

/-- Names are bound to terms that stand for terms without runs. -/
def Bindings.MarkerFree (b : Bindings) : Prop := ∀ x v, b.get? x = some v → v.MarkerFreeRun

namespace Term

variable {b : Bindings}

theorem substitute_symbol (b : Bindings) (x : Symbol) :
    (Term.symbol x).substitute b = (b.get? x).getD (.symbol x) := rfl

/-- Runs of arguments are dissolved where their names stand. -/
theorem dissolved_substitute (hb : b.MarkerFree) :
    ∀ {t : Term}, t.Dissolved → (t.substitute b).Dissolved
  | .symbol x, _ => by
      rw [substitute_symbol]
      cases hx : b.get? x with
      | none => exact nofun
      | some v => exact (hb x v hx).dissolved
  | .node i f xs, h => by
      obtain ⟨hm, hf, hxs⟩ := dissolved_node.mp h
      obtain ⟨j, hsubst⟩ := exists_substitute_node b i f hm
      have hrun : ∀ x ∈ xs.flatMap fun x => (x.substitute b).run,
          x.isMarker = false ∧ x.Dissolved := by
        intro y hy
        obtain ⟨x, hx, hy⟩ := List.mem_flatMap.mp hy
        exact (dissolved_substitute hb (hxs x hx)).run y hy
      rw [hsubst]
      exact dissolved_node.mpr
        ⟨fun y hy => (hrun y hy).1, dissolved_substitute hb hf, fun y hy => (hrun y hy).2⟩
  | .magic _, _ | .int _, _ | .float _, _ | .text _, _ | .host _, _ => nofun

/-- A term that is no name, or a name that does not stand for a run or for the head of runs. -/
def KeepsHead (b : Bindings) (f : Term) : Prop :=
  ∀ x v, f = .symbol x → b.get? x = some v → v.isMarker = false ∧ v ≠ .magic .sequence

theorem isMarker_node_iff {i : Nat} {f : Term} {xs : List Term} :
    (node i f xs).isMarker = true ↔ f = .magic .sequence := by
  constructor
  · intro h
    obtain ⟨j, ys, h⟩ := isMarker_eq_true h
    cases h
    rfl
  · rintro rfl
    rfl

theorem substitute_ne_sequence {f : Term} (h : f.MarkerFree) (hf : f ≠ .magic .sequence)
    (hk : KeepsHead b f) : f.substitute b ≠ .magic .sequence := by
  cases f with
  | symbol x =>
      rw [substitute_symbol]
      cases hx : b.get? x with
      | none => exact nofun
      | some v => exact (hk x v rfl hx).2
  | node i g xs =>
      obtain ⟨j, hsubst⟩ := exists_substitute_node b i g
        fun x hx => ((markerFree_node.mp h).2.2 x hx).isMarker
      rw [hsubst]
      exact nofun
  | _ => exact hf

/-- Where no call is headed by the name of a run, all runs are dissolved. -/
theorem markerFree_substitute (hb : b.MarkerFree) : ∀ {t : Term}, t.MarkerFree →
    (t.Every fun s => ∀ i f xs, s = node i f xs → KeepsHead b f) →
      (t.substitute b).MarkerFreeRun ∧ (KeepsHead b t → (t.substitute b).MarkerFree)
  | .symbol x, h, _ => by
      rw [substitute_symbol]
      cases hx : b.get? x with
      | none => exact ⟨h.markerFreeRun, fun _ => h⟩
      | some v => exact ⟨hb x v hx, fun hk => (hb x v hx).of_isMarker (hk x v rfl hx).1⟩
  | .node i f xs, h, hk => by
      obtain ⟨hm, hf, hxs⟩ := markerFree_node.mp h
      obtain ⟨hkeeps, hkf, hkxs⟩ := every_node.mp hk
      have hhead := hkeeps i f xs rfl
      have hfm : f ≠ .magic .sequence := fun hf => by simp [isMarker_node_iff.mpr hf] at hm
      obtain ⟨j, hsubst⟩ := exists_substitute_node b i f fun x hx => (hxs x hx).isMarker
      have hfree : ((node i f xs).substitute b).MarkerFree := by
        rw [hsubst, markerFree_node]
        refine ⟨?_, (markerFree_substitute hb hf hkf).2 hhead, fun y hy => ?_⟩
        · rw [← Bool.not_eq_true, isMarker_node_iff]
          exact substitute_ne_sequence hf hfm hhead
        · obtain ⟨x, hx, hy⟩ := List.mem_flatMap.mp hy
          exact (markerFree_substitute hb (hxs x hx) (hkxs x hx)).1 y hy
      exact ⟨hfree.markerFreeRun, fun _ => hfree⟩
  | .magic _, h, _ | .int _, h, _ | .float _, h, _ | .text _, h, _ | .host _, h, _ =>
      ⟨h.markerFreeRun, fun _ => h⟩

end Term

namespace Pattern

/-! ## bindings of matches -/

/-- A form whose default, if it has one, is without runs. -/
def MarkerFreeDefault : Pattern → Prop
  | optional _ (some d) => d.MarkerFree
  | _ => True

theorem every_markerFreeDefault {t : Term} (h : t.MarkerFree) :
    (ofTerm t).Every MarkerFreeDefault := by
  have hread := every_ofTerm (r := Term.MarkerFree)
    (fun _ _ _ h => (Term.markerFree_node.mp h).2) t h
  refine hread.imp ?_
  rintro p ⟨s, hs, rfl⟩
  have hterms := fun d => Term.markerFree_of_mem_terms (d := d) hs
  cases hp : ofTerm s with
  | optional q default =>
      rw [hp] at hterms
      cases default with
      | none => trivial
      | some d => exact hterms d List.mem_cons_self
  | _ => trivial

/-- The head by which a slot groups arguments, if any, makes no run of them. -/
def GroupsMarkerFree (flat : Option Term) : Prop :=
  ∀ f ∈ flat, ∀ items : List Term, (∀ x ∈ items, x.MarkerFree) → (Term.call f items).MarkerFree

variable {w : Outcomes}

theorem markerFreeRun_value (s : Size) {flat : Option Term} {items : List Term} {value : Term}
    (hflat : GroupsMarkerFree flat) (hitems : ∀ x ∈ items, x.MarkerFree)
    (hvalue : value.strip = (s.value flat items).strip) : value.MarkerFreeRun :=
  (Term.markerFreeRun_congr hvalue).mpr
    (markerFree_of_mem_run_value s hitems fun f hf => hflat f hf items hitems)

theorem groupsMarkerFree_none : GroupsMarkerFree none := nofun

theorem markerFree_of_repeats {size : Bindings → Size} {one : Term → Bindings → Bindings → Prop}
    (hone : ∀ {t b b'}, t.MarkerFreeRun → b.MarkerFree → one t b b' → b'.MarkerFree)
    {least most : Nat} {items : List Term} {count : Nat} {b b' : Bindings}
    (hitems : ∀ x ∈ items, x.MarkerFree) (hb : b.MarkerFree)
    (h : Repeats size one least most items count b b') : b'.MarkerFree := by
  induction h with
  | done => exact hb
  | step _ _ _ hvalue hfits _ ih =>
      refine ih (fun x hx => hitems x (List.mem_of_mem_drop hx)) (hone ?_ hb hfits)
      exact markerFreeRun_value _ groupsMarkerFree_none
        (fun x hx => hitems x (List.mem_of_mem_take hx)) hvalue

mutual

/-- Terms without runs are matched by binding names to terms that stand for terms without runs. -/
theorem markerFree_of_fits (hw : ∀ d, w.default d → d.MarkerFree) : ∀ (p : Pattern),
    p.Every MarkerFreeDefault → ∀ {t : Term} {b b' : Bindings}, t.MarkerFreeRun → b.MarkerFree →
      p.Fits w t b b' → b'.MarkerFree
  | atom _, _, _, _, _, _, hb, h | literal _, _, _, _, _, _, hb, h | blank _, _, _, _, _, _, hb, h
  | blankNullSequence _, _, _, _, _, _, hb, h => h.2 ▸ hb
  | blankSequence _, _, _, _, _, _, hb, h | except _, _, _, _, _, _, hb, h => h.2.2 ▸ hb
  | named name p, hp, t, b, b', ht, hb, h => by
      rw [Fits] at h
      cases hname : b.get? name with
      | some value =>
          rw [hname] at h
          exact markerFree_of_fits hw p hp.2 ht hb h.2
      | none =>
          rw [hname] at h
          refine markerFree_of_fits hw p hp.2 ht (fun x v hx => ?_) h
          rw [Bindings.get?_push] at hx
          cases hx' : b.get? x with
          | some v' =>
              rw [hx'] at hx
              cases hx
              exact hb x v hx'
          | none =>
              rw [hx', Option.none_or, Option.ite_none_right_eq_some] at hx
              cases hx.2
              exact ht
  | condition p _, hp, _, _, _, ht, hb, h | tested p _, hp, _, _, _, ht, hb, h =>
      markerFree_of_fits hw p hp.2 ht hb h.1
  | alternatives ps, hp, _, _, _, ht, hb, h => markerFree_of_fitsAny hw ps hp.2 ht hb h
  | repeated p _ _ _, hp, _, _, _, ht, hb, h =>
      markerFree_of_repeats (markerFree_of_fits hw p hp.2) ht hb h
  | optional p default, hp, t, b, b', ht, hb, h => by
      by_cases hempty : (t.isMarker && t.args.isEmpty) = true
      · cases default with
        | some d =>
            rw [Fits, if_pos hempty] at h
            exact markerFree_of_fits hw p hp.2 (Term.MarkerFree.markerFreeRun hp.1) hb h
        | none =>
            rw [Fits, if_pos hempty] at h
            obtain ⟨d, hd, h⟩ := h
            exact markerFree_of_fits hw p hp.2 (hw d hd).markerFreeRun hb h
      · refine markerFree_of_fits hw p hp.2 ht hb ?_
        cases default <;> rwa [Fits, if_neg hempty] at h
  | hold p, hp, _, _, _, ht, hb, h | longest p, hp, _, _, _, ht, hb, h
  | shortest p, hp, _, _, _, ht, hb, h => markerFree_of_fits hw p hp.2 ht hb h
  | sequence ps, hp, _, _, _, ht, hb, h =>
      markerFree_of_fitsSlots hw ps hp.2 groupsMarkerFree_none ht hb h
  | exceptThen _ p, hp, _, _, _, ht, hb, h => markerFree_of_fits hw p hp.2.2 ht hb h.2
  | call whole head args, hp, t, b, b', ht, hb, h => by
      obtain ⟨subject, hsubject, h⟩ := h
      rw [Term.single?_eq_some_iff] at hsubject
      have hfree : subject.MarkerFree := ht subject (by rw [hsubject]; exact List.mem_cons_self)
      obtain ⟨-, -, -, -, rfl⟩ | ⟨-, -, -, i, f, xs, b₁, rfl, hhead, attrs, -, hargs⟩ := h
      · exact hb
      obtain ⟨hm, hf, hxs⟩ := Term.markerFree_node.mp hfree
      have hb₁ := markerFree_of_fits hw head hp.2.1 hf.markerFreeRun hb hhead
      have hgroups : ∀ c : Bool, GroupsMarkerFree (if c then some f else none) := by
        intro c g hg items hitems
        rw [Option.mem_def, Option.ite_none_right_eq_some] at hg
        cases hg.2
        exact Term.markerFree_node.mpr ⟨by rw [Term.isMarker_node] at hm ⊢; exact hm, hf, hitems⟩
      dsimp only at hargs
      split at hargs
      · exact markerFree_of_fitsAnywhere hw args hp.2.2 (hgroups _) hxs hb₁ hargs
      · exact markerFree_of_fitsSlots hw args hp.2.2 (hgroups _) hxs hb₁ hargs

theorem markerFree_of_fitsAny (hw : ∀ d, w.default d → d.MarkerFree) : ∀ (ps : List Pattern),
    AllEvery MarkerFreeDefault ps → ∀ {t : Term} {b b' : Bindings}, t.MarkerFreeRun →
      b.MarkerFree → FitsAny w ps t b b' → b'.MarkerFree
  | [], _, _, _, _, _, _, h => h.elim
  | p :: ps, hp, _, _, _, ht, hb, h => h.elim (markerFree_of_fits hw p hp.1 ht hb)
      (markerFree_of_fitsAny hw ps hp.2 ht hb)

theorem markerFree_of_fitsSlots (hw : ∀ d, w.default d → d.MarkerFree) : ∀ (ps : List Pattern),
    AllEvery MarkerFreeDefault ps → ∀ {flat : Option Term} {args : List Term} {b b' : Bindings},
      GroupsMarkerFree flat → (∀ x ∈ args, x.MarkerFree) → b.MarkerFree →
        FitsSlots w ps flat args b b' → b'.MarkerFree
  | [], _, _, _, _, _, _, _, hb, h => h.2 ▸ hb
  | p :: ps, hp, flat, args, b, b', hflat, hargs, hb, h => by
      obtain ⟨n, -, value, b₁, hvalue, hfits, hrest⟩ := h
      have ht := markerFreeRun_value _ hflat (fun x hx => hargs x (List.mem_of_mem_take hx)) hvalue
      exact markerFree_of_fitsSlots hw ps hp.2 hflat (fun x hx => hargs x (List.mem_of_mem_drop hx))
        (markerFree_of_fits hw p hp.1 ht hb hfits) hrest

theorem markerFree_of_fitsAnywhere (hw : ∀ d, w.default d → d.MarkerFree) :
    ∀ (ps : List Pattern), AllEvery MarkerFreeDefault ps → ∀ {flat : Option Term}
      {args : List Term} {b b' : Bindings}, GroupsMarkerFree flat → (∀ x ∈ args, x.MarkerFree) →
        b.MarkerFree → FitsAnywhere w ps flat args b b' → b'.MarkerFree
  | [], _, _, _, _, _, _, _, hb, h => h.2 ▸ hb
  | p :: ps, hp, flat, args, b, b', hflat, hargs, hb, h => by
      obtain ⟨n, -, taken, left, hchoice, value, b₁, hvalue, hfits, hrest⟩ := h
      have hmem := fun x hx => hargs x ((mem_choices hchoice).2.mem_iff.mp hx)
      have ht := markerFreeRun_value _ hflat
        (fun x hx => hmem x (List.mem_append_left _ hx)) hvalue
      exact markerFree_of_fitsAnywhere hw ps hp.2 hflat
        (fun x hx => hmem x (List.mem_append_right _ hx))
        (markerFree_of_fits hw p hp.1 ht hb hfits) hrest

end

end Pattern

end Termwise
