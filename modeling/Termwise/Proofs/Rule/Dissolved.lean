import Termwise.Proofs.Pattern.Dissolved
import Termwise.Proofs.Rule.History
import Termwise.Proofs.Rule.Partial

/-!
# Termwise.Proofs.Rule.Dissolved

Runs of terms do not get out of a match: what a rule makes of a term without runs is no run, and has
none among the arguments of its calls (`Evaluator.rewriteWith_dissolved`).  Every result is an
instance of the right-hand side, or the term with one in the place of some arguments
(`Rule.Produces`); in an instance runs are dissolved where their names are arguments, and a run that
is left at the top becomes a sequence.

In the place of a head a run stays: a call in the right-hand side that is headed by the name of a
run becomes a call headed by the run (`Evaluator.rewriteWith_head_of_run`).
-/

namespace Termwise

namespace Rule

/-! ## results -/

variable {w : Outcomes} {lhs rhs t result : Term} {b : Bindings}

/-- A result is a part of the right-hand side with its names filled in. -/
theorem exists_filled (h : Instantiates w rhs b result) :
    ∃ body, result = filled body b ∧ ∀ q : Term → Prop, rhs.Every q → body.Every q := by
  unfold Instantiates at h
  split at h
  · rename_i body test
    split at h
    · exact ⟨body, h.2, fun q hq => (Term.every_node.mp hq).2.2 body List.mem_cons_self⟩
    · exact ⟨_, h, fun _ hq => hq⟩
  · exact ⟨_, h, fun _ hq => hq⟩

/-- A filled-in term is no run, and no argument in it is one. -/
theorem dissolved_filled (hb : b.MarkerFree) (ht : t.MarkerFree) :
    (filled t b).isMarker = false ∧ (filled t b).Dissolved := by
  have hd := Term.dissolved_substitute hb ht.dissolved
  unfold filled
  dsimp only
  split
  · rename_i hm
    obtain ⟨i, xs, heq⟩ := Term.isMarker_eq_true hm
    rw [heq] at hd ⊢
    exact ⟨rfl, Term.dissolved_node.mpr ⟨(Term.dissolved_node.mp hd).1, nofun,
      (Term.dissolved_node.mp hd).2.2⟩⟩
  · rename_i hm
    exact ⟨Bool.eq_false_iff.mpr hm, hd⟩

/-- Where no call in a term is headed by the name of a run, the filled-in term is without runs. -/
theorem markerFree_filled (hb : b.MarkerFree) (ht : t.MarkerFree)
    (hk : t.Every fun s => ∀ i f xs, s = .node i f xs → Term.KeepsHead b f) :
    (filled t b).MarkerFree := by
  have hrun := (Term.markerFree_substitute hb ht hk).1
  unfold filled
  dsimp only
  split
  · rename_i hm
    obtain ⟨i, xs, heq⟩ := Term.isMarker_eq_true hm
    rw [heq] at hrun ⊢
    exact Term.markerFree_node.mpr ⟨rfl, rfl, hrun⟩
  · rename_i hm
    exact hrun.of_isMarker (Bool.eq_false_iff.mpr hm)

/-- No call in a right-hand side is headed by a name that stands for a run, or for the head of
runs. -/
def KeepsHeads (b : Bindings) (rhs : Term) : Prop :=
  rhs.Every fun s => ∀ i f xs, s = .node i f xs → Term.KeepsHead b f

/-- What a rule may make of a term: an instance of its right-hand side, or the term with one in the
place of some arguments. -/
inductive Produces (w : Outcomes) (lhs rhs : Term) : Term → Term → Prop
  | whole {t result : Term} {b : Bindings} : (Pattern.ofTerm lhs).Fits w t .empty b →
      Instantiates w rhs b result → Produces w lhs rhs t result
  | part {i : Nat} {f : Symbol} {args : List Term} {result : Term} :
      Part w lhs rhs f args result → Produces w lhs rhs (.node i (.symbol f) args) result

section Yields

variable {m : Type → Type} [Monad m] {env : Surroundings m} {o : Observation m}

theorem yields_rewrite (hw : env.Meets o w) :
    o.Yields (rewrite env lhs rhs t) (Produces w lhs rhs t) := by
  have hwhole : o.Yields ((Pattern.ofTerm lhs).search env Term t .empty (instantiate env rhs))
      (Produces w lhs rhs t) :=
    Pattern.sound_search hw _ fun b hfits => o.gives_mono (yields_instantiate hw rhs b)
      fun _ h result hresult => .whole hfits (h result hresult)
  refine o.gives_bind hwhole fun r hr => ?_
  cases r with
  | some result => exact Observation.yields_some (hr result rfl)
  | none =>
      dsimp only
      split
      · rename_i whole head slots i f args hunheld
        refine o.gives_bind hw.attributes fun attrs hattrs => ?_
        refine iteInduction (motive := fun x => o.Yields x
          (Produces w lhs rhs (.node i (.symbol f) args))) (fun h => ?_)
          fun _ => Observation.yields_none
        simp only [Bool.and_eq_true, Bool.not_eq_true', List.isEmpty_eq_false_iff] at h
        obtain ⟨⟨hflat, hkey⟩, hargs⟩ := h
        exact o.gives_mono (yields_applyInside hw hattrs hflat hunheld hkey hargs)
          fun _ h result hresult => .part (h result hresult)
      · exact Observation.yields_none

end Yields

/-- A left-hand side matches a term with these bindings, or a call of some of its arguments. -/
def Matches (w : Outcomes) (lhs t : Term) (b : Bindings) : Prop :=
  (Pattern.ofTerm lhs).Fits w t .empty b ∨ ∃ i f args run rest, t = .node i (.symbol f) args ∧
    (run ++ rest).Perm args ∧ (Pattern.ofTerm lhs).Fits w (.call (.symbol f) run) .empty b

/-- What holds of calls of what it holds of, holds of a call with a result in the place of some
arguments. -/
theorem inPlace_of {q : Term → Prop} {head : Term} {before after : List Term}
    (hcall : ∀ items, (∀ x ∈ items, q x) → q (.call head items)) (hbefore : ∀ x ∈ before, q x)
    (hresult : q result) (hafter : ∀ x ∈ after, q x) : q (inPlace head before result after) := by
  unfold inPlace
  split
  · exact hresult
  · refine hcall _ fun x hx => ?_
    rw [List.mem_append, List.mem_cons] at hx
    obtain hx | rfl | hx := hx
    · exact hbefore x hx
    · exact hresult
    · exact hafter x hx

/-- An instance of a right-hand side is no run, nor is an argument in it one; it is without runs
where no call is headed by the name of a run. -/
theorem dissolved_of_instantiates (hb : b.MarkerFree) (hrhs : rhs.MarkerFree)
    (h : Instantiates w rhs b result) :
    (result.isMarker = false ∧ result.Dissolved) ∧ (KeepsHeads b rhs → result.MarkerFree) := by
  obtain ⟨body, rfl, hbody⟩ := exists_filled h
  exact ⟨dissolved_filled hb (hbody _ hrhs),
    fun hk => markerFree_filled hb (hbody _ hrhs) (hbody _ hk)⟩

theorem markerFree_empty : Bindings.empty.MarkerFree := nofun

theorem markerFree_call_symbol {f : Symbol} {xs : List Term} (h : ∀ x ∈ xs, x.MarkerFree) :
    (Term.call (.symbol f) xs).MarkerFree := Term.markerFree_node.mpr ⟨rfl, rfl, h⟩

/-- What a rule makes of a term is no run and has none among the arguments of its calls, and has
none at all where no call in the right-hand side is headed by the name of a run. -/
structure RunsDissolved (w : Outcomes) (lhs rhs t result : Term) : Prop where
  top : result.isMarker = false
  args : result.Dissolved
  heads : ∃ b, Matches w lhs t b ∧ (KeepsHeads b rhs → result.MarkerFree)

/-- Terms without runs are rewritten to terms in which runs are dissolved. -/
theorem Produces.runsDissolved (hw : ∀ d, w.default d → d.MarkerFree) (hlhs : lhs.MarkerFree)
    (hrhs : rhs.MarkerFree) (ht : t.MarkerFree) (h : Produces w lhs rhs t result) :
    RunsDissolved w lhs rhs t result := by
  have hbindings : ∀ {s : Term} {b : Bindings}, s.MarkerFree →
      (Pattern.ofTerm lhs).Fits w s .empty b → b.MarkerFree := fun hs hfits =>
    Pattern.markerFree_of_fits hw _ (Pattern.every_markerFreeDefault hlhs) hs.markerFreeRun
      markerFree_empty hfits
  cases h with
  | whole hfits hinst =>
      obtain ⟨⟨hm, hd⟩, hfree⟩ := dissolved_of_instantiates (hbindings ht hfits) hrhs hinst
      exact ⟨hm, hd, _, .inl hfits, hfree⟩
  | @part i f args _ hpart =>
      have hargs : ∀ x ∈ args, x.MarkerFree := (Term.markerFree_node.mp ht).2.2
      have hplace : ∀ {before run after : List Term} {result : Term} {b : Bindings},
          (run ++ (before ++ after)).Perm args →
          (Pattern.ofTerm lhs).Fits w (.call (.symbol f) run) .empty b →
          Instantiates w rhs b result → RunsDissolved w lhs rhs (.node i (.symbol f) args)
            (inPlace (.symbol f) before result after) := by
        intro before run after result b hperm hfits hinst
        have hmem : ∀ x ∈ run ++ (before ++ after), x.MarkerFree := fun x hx =>
          hargs x (hperm.mem_iff.mp hx)
        rw [List.forall_mem_append, List.forall_mem_append] at hmem
        obtain ⟨hrun, hbefore, hafter⟩ := hmem
        have hb := hbindings (markerFree_call_symbol hrun) hfits
        obtain ⟨hd, hfree⟩ := dissolved_of_instantiates hb hrhs hinst
        have hcall : ∀ items : List Term, (∀ x ∈ items, x.isMarker = false ∧ x.Dissolved) →
            (Term.call (.symbol f) items).isMarker = false ∧
              (Term.call (.symbol f) items).Dissolved := fun items h =>
          ⟨rfl, Term.dissolved_node.mpr ⟨fun x hx => (h x hx).1, nofun, fun x hx => (h x hx).2⟩⟩
        obtain ⟨hm, hd⟩ := inPlace_of hcall
          (fun x hx => ⟨(hbefore x hx).isMarker, (hbefore x hx).dissolved⟩) hd
          fun x hx => ⟨(hafter x hx).isMarker, (hafter x hx).dissolved⟩
        exact ⟨hm, hd, b, .inr ⟨i, f, args, run, _, rfl, hperm, hfits⟩, fun hk =>
          inPlace_of (fun _ => markerFree_call_symbol) hbefore (hfree hk) hafter⟩
      cases hpart with
      | @stretch attrs before run after b result _ _ _ hsplit hfits hinst =>
          refine hplace ?_ hfits hinst
          rw [hsplit, ← List.append_assoc, ← List.append_assoc]
          exact List.perm_append_comm.append_right _
      | @choice attrs before rest taken after x b result _ _ _ hsplit hchoice hfits hinst =>
          refine hplace ?_ hfits hinst
          have hperm := (mem_choices hchoice).2
          rw [hsplit]
          calc (x :: taken ++ (before ++ after)).Perm (before ++ (x :: taken ++ after)) :=
                List.perm_append_comm_assoc _ _ _
            _ |>.Perm (before ++ x :: rest) := (hperm.cons x).append_left before
      | @nothing attrs b result _ _ _ hfits hinst =>
          have hfree := markerFree_call_symbol (f := f) hargs
          exact ⟨hfree.isMarker, hfree.dissolved, b,
            .inr ⟨i, f, args, [], args, rfl, .refl _, hfits⟩, fun _ => hfree⟩

end Rule

namespace Evaluator

variable {r : Evaluator} {c : ContextId} {lhs rhs t result : Term} {k k' : Kernel}

/-- What rewriting in a kernel makes of a term is what the rule produces. -/
theorem exists_produced (hrun : (r.rewriteWith c lhs rhs t).run k = (.ok (some result), k')) :
    ∃ raw, Rule.Produces (r.outcomesFrom c k) lhs rhs t raw ∧ result.strip = raw.strip := by
  obtain ⟨found, k₁, hsearch, hshare⟩ := EvalM.run_bind_eq_ok hrun
  obtain ⟨s, hsearch⟩ := SearchM.run_run'_eq_ok hsearch
  cases found with
  | none => cases hshare
  | some raw =>
      have hproduces := (Rule.yields_rewrite (meets_outcomes r c k) {} k (some raw) s k₁ .refl
        hsearch).2 raw rfl
      cases hshare
      exact ⟨raw, hproduces, Term.strip_share raw _⟩

/-- Where no default has runs in it, a rule without runs rewrites a term without runs to a term that
is no run and has none among the arguments of its calls.  It is without runs altogether where no
call in the right-hand side is headed by a name that the match binds to a run. -/
theorem rewriteWith_dissolved (lhs rhs t : Term) (hlhs : lhs.MarkerFree) (hrhs : rhs.MarkerFree)
    (ht : t.MarkerFree) (hdefault : ∀ d, (r.outcomesFrom c k).default d → d.MarkerFree)
    (hrun : (r.rewriteWith c lhs rhs t).run k = (.ok (some result), k')) :
    Rule.RunsDissolved (r.outcomesFrom c k) lhs rhs t result := by
  obtain ⟨raw, hproduces, hraw⟩ := exists_produced hrun
  obtain ⟨hm, hd, b, hb, hfree⟩ := hproduces.runsDissolved hdefault hlhs hrhs ht
  refine ⟨?_, (Term.dissolved_congr hraw).mpr hd, b, hb,
    fun hk => (Term.markerFree_congr hraw).mpr (hfree hk)⟩
  rw [← Term.isMarker_strip, hraw, Term.isMarker_strip, hm]

/-! ## runs that stay -/

theorem undefaulted_newKernel : newKernel.Undefaulted := fun s => Kernel.rules?_new {} s .default

/-- Kernels with the same symbols define the same defaults. -/
theorem undefaulted_of_symbols (hk : k.symbols = newKernel.symbols) : k.Undefaulted := by
  intro s
  have hnew := undefaulted_newKernel s
  rwa [Kernel.rules?, Kernel.record, ← hk, ← Kernel.record, ← Kernel.rules?] at hnew

/-- An evaluator that does nothing defines nothing. -/
theorem symbols_of_leads (h : still.Leads c newKernel k) : k.symbols = newKernel.symbols := by
  induction h with
  | refl => rfl
  | elapse _ _ ih => exact ih
  | share _ _ ih => exact ih
  | evaluate _ hrun ih =>
      cases hrun
      exact ih
  | default? _ hrun ih =>
      rw [run_default?_of_undefaulted (undefaulted_of_symbols ih)] at hrun
      cases hrun
      exact ih

theorem no_default_newKernel (c : ContextId) (d : Term) :
    ¬ (still.outcomesFrom c newKernel).default d := by
  rintro ⟨slot, k', k'', hleads, hrun⟩
  rw [run_default?_of_undefaulted (undefaulted_of_symbols (symbols_of_leads hleads))] at hrun
  cases hrun

/-- `{x__} :> hold[x, 3]` rewrites `{1, 2}` to `hold[1, 2, 3]`, in which the run is dissolved. -/
theorem rewriteWith_dissolved_list :
    ∃ result k', (still.rewriteWith ⟨0⟩
        (.app .list [.app .pattern [.symbol ⟨40, "x"⟩, .app .blankSequence []]])
        (.app .hold [.symbol ⟨40, "x"⟩, .int 3]) (.app .list [.int 1, .int 2])).run newKernel =
          (.ok (some result), k') ∧
      (result == .app .hold [.int 1, .int 2, .int 3]) = true ∧ result.Dissolved := by
  refine ⟨_, _, rfl, rfl, ?_⟩
  exact (rewriteWith_dissolved (r := still) (c := ⟨0⟩) (k := newKernel)
    (.app .list [.app .pattern [.symbol ⟨40, "x"⟩, .app .blankSequence []]])
    (.app .hold [.symbol ⟨40, "x"⟩, .int 3]) (.app .list [.int 1, .int 2])
    (by decide) (by decide) (by decide) (fun d hd => absurd hd (no_default_newKernel _ d)) rfl).args

/-- `{x__} :> x[1]` rewrites `{1, 2}` to a call of 1 whose head is a run. -/
theorem rewriteWith_head_of_run :
    ∃ result k', (still.rewriteWith ⟨0⟩
        (.app .list [.app .pattern [.symbol ⟨40, "x"⟩, .app .blankSequence []]])
        (.call (.symbol ⟨40, "x"⟩) [.int 1]) (.app .list [.int 1, .int 2])).run newKernel =
          (.ok (some result), k') ∧
      (result == .call (.marker [.int 1, .int 2]) [.int 1]) = true ∧ ¬ result.MarkerFree :=
  ⟨_, _, rfl, rfl, by decide⟩

end Evaluator

end Termwise
