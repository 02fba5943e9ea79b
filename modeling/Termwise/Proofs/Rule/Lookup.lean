import Termwise.Eval.Evaluate
import Termwise.Proofs.Eval.Match
import Termwise.Proofs.Rule.Dispatch
import Termwise.Proofs.Rule.Table

/-!
# Termwise.Proofs.Rule.Lookup

A lookup answers what a scan of all rules answers (`Reached.find?_eq_scan`): the dispatch
table, and what was worked out when rules were made, only save work.  What rules do to
the subject is taken as a function of their two sides.

That holds as long as dispatch keys are current.  A key is worked out when its rule is made;
it can cease to be one only if the head of the left-hand side is itself a call, in
which a symbol has become flat or orderless since.  Then the table can hide a rule that
applies (`lookup_hides_rule`).
-/

namespace Termwise

/-! ## literal terms under changed attributes -/

namespace Term

variable {attrs attrs₀ : Symbol → Attributes}

mutual

/-- A literal term stays literal while no symbol becomes flat or orderless. -/
theorem isLiteral_mono
    (h : ∀ s : Symbol, s.opensMatch attrs = true → s.opensMatch attrs₀ = true) :
    ∀ t : Term, t.isLiteral attrs₀ = true → t.isLiteral attrs = true
  | .node _ f xs, ht => by
      obtain ⟨hf, hxs⟩ := isLiteral_parts ht
      have hf' := isLiteral_mono h f hf
      have hxs' := areLiteral_mono h xs hxs
      cases f with
      | symbol s =>
          have hs : s.opensMatch attrs = false := by
            rw [Bool.eq_false_iff]
            intro hs
            simp [isLiteral, h s hs] at ht
          simp [isLiteral, hs, hxs']
      | node j g ys => simpa [isLiteral, hxs'] using hf'
      | _ => simp [isLiteral, hxs']
  | .magic _, _ | .int _, _ | .float _, _ | .text _, _ | .symbol _, _ | .host _, _ => rfl

theorem areLiteral_mono
    (h : ∀ s : Symbol, s.opensMatch attrs = true → s.opensMatch attrs₀ = true) :
    ∀ ts : List Term, areLiteral attrs₀ ts = true → areLiteral attrs ts = true
  | [], _ => rfl
  | t :: ts, hts => by
      rw [areLiteral, Bool.and_eq_true] at hts ⊢
      exact ⟨isLiteral_mono h t hts.1, areLiteral_mono h ts hts.2⟩

end

end Term

theorem findSome?_congr {α σ : Type} {f g : α → Option σ} {xs : List α}
    (h : ∀ x ∈ xs, f x = g x) : xs.findSome? f = xs.findSome? g := by
  induction xs with
  | nil => rfl
  | cons x xs ih =>
      rw [List.findSome?_cons, List.findSome?_cons, h x List.mem_cons_self,
        ih fun y hy => h y (List.mem_cons_of_mem _ hy)]

namespace RuleList

variable {l : RuleList}

/-! ## scanning all rules -/

/-- What a lookup is to answer, where `answer` tells what two sides make of the subject: the constant
rule of the subject, or else the first rule that applies among the constant rules that are none any
more and the pattern rules. -/
def scan (l : RuleList) (attrs : Symbol → Attributes) (answer : Term → Term → Option Term)
    (subject : Term) : Option Term :=
  match l.constant? subject with
  | some rhs => some rhs
  | none => ((l.literals.filter fun r => !r.lhs.isLiteral attrs) ++ l.patterns).findSome?
      fun r => answer r.lhs r.rhs

/-- Every pattern rule without a dispatch key, or with the one that its left-hand side has now. -/
def KeysCurrent (l : RuleList) (attrs : Symbol → Attributes) : Prop :=
  ∀ r ∈ l.patterns, r.dispatch = none ∨ r.dispatch = (Pattern.ofTerm r.lhs).dispatchKey attrs

/-- A dispatch key that is literal still is a dispatch key. -/
theorem dispatchKey_of_isLiteral {attrs attrs₀ : Symbol → Attributes} {key : Term}
    (hkey : key.isLiteral attrs = true) : ∀ p : Pattern, p.dispatchKey attrs₀ = some key →
      p.dispatchKey attrs = some key
  | .hold p, h | .condition p _, h | .named _ p, h => dispatchKey_of_isLiteral hkey p h
  | .literal _, h | .atom _, h => h
  | .call whole _ _, h => by
      rw [Pattern.dispatchKey] at h ⊢
      split at h
      · cases h
        rw [if_pos hkey]
      · cases h

/-- Dispatch keys that are all literal, as atoms are, are current. -/
theorem Tidy.keysCurrent (h : l.Tidy) {attrs : Symbol → Attributes}
    (hkeys : ∀ r ∈ l.patterns, ∀ key, r.dispatch = some key → key.isLiteral attrs = true) :
    l.KeysCurrent attrs := by
  intro r hr
  obtain ⟨attrs₀, hreads⟩ := h.made r (List.mem_append_right _ hr)
  cases hdispatch : r.dispatch with
  | none => exact .inl rfl
  | some key =>
      rw [hreads.dispatch] at hdispatch
      exact .inr (dispatchKey_of_isLiteral (hkeys r hr key (hreads.dispatch.trans hdispatch)) _
        hdispatch).symm

/-- A rule whose left-hand side is not the subject, if no constant rule is one of the subject. -/
theorem lhs_ne_of_constant? {subject : Term} {r : Rule} (h : l.constant? subject = none)
    (hr : r ∈ l.literals) : (r.lhs == subject) = false := by
  rw [constant?, Option.map_eq_none_iff, List.find?_eq_none] at h
  exact Bool.eq_false_iff.mpr (h r hr)

/-- The rules that a ready list tries give the first answer of all rules, if those that are left out
or added give none. -/
theorem findSome?_candidates {k : Kernel} {subject : Term} {σ : Type} {g : Term → Term → Option σ}
    (hfits : l.TableFits k) (hconstant : l.constant? subject = none)
    (hliterals : ∀ r ∈ l.literals, r.lhs.isLiteral k.attributes = true → g r.lhs r.rhs = none)
    (hpatterns : ∀ r ∈ l.patterns, r.mayMatch subject.key = false → g r.lhs r.rhs = none) :
    ((l.ready k.attributes k.structureEpoch subject).candidates subject).findSome?
        (fun r => g r.lhs r.rhs) =
      ((l.literals.filter fun r => !r.lhs.isLiteral k.attributes) ++ l.patterns).findSome?
        fun r => g r.lhs r.rhs := by
  obtain ⟨hl, hp⟩ := l.rules_ready k.attributes k.structureEpoch subject
  -- the list without its hidden rules, for a table of whatever attributes
  have htable : ∀ attrs t, (l.ready k.attributes k.structureEpoch subject).table = some t →
      t = (l.ready k.attributes k.structureEpoch subject).makeTable attrs t.epoch →
      ((l.ready k.attributes k.structureEpoch subject).candidates subject).findSome?
          (fun r => g r.lhs r.rhs) =
        (l.literals.findSome? fun r => if !r.lhs.isLiteral attrs then g r.lhs r.rhs else none).or
          (l.patterns.findSome? fun r => g r.lhs r.rhs) := by
    intro attrs t ht hmade
    rw [candidates_of_table ht hmade, hl, hp, List.findSome?_append, List.findSome?_map,
      findSome?_filter, findSome?_filter]
    congr 1
    refine findSome?_congr fun r hr => ?_
    cases hmay : r.mayMatch subject.key with
    | true => rfl
    | false => exact (hpatterns r hr hmay).symm
  rw [List.findSome?_append, findSome?_filter]
  cases hneeds : l.needsTable subject with
  | true =>
      obtain ⟨t, ht, hepoch⟩ :=
        exists_table_of_needsTable k.attributes k.structureEpoch hneeds
      obtain ⟨-, attrs, hmade, hopens⟩ := hfits.ready subject t ht
      rw [htable attrs t ht hmade]
      congr 1
      refine findSome?_congr fun r hr => ?_
      cases hlit : r.lhs.isLiteral attrs with
      | true => simp [Term.isLiteral_mono (hopens hepoch) r.lhs hlit]
      | false =>
          cases hnow : r.lhs.isLiteral k.attributes with
          | true => simp [hliterals r hr hnow]
          | false => rfl
  | false =>
      have hempty : l.literals = [] ∧ l.patterns = [] := by
        simpa [needsTable, hconstant, isEmpty] using hneeds
      cases ht : (l.ready k.attributes k.structureEpoch subject).table with
      | none => rw [candidates, ht, hp, hempty.1, hempty.2]; rfl
      | some t =>
          obtain ⟨-, attrs, hmade, -⟩ := hfits.ready subject t ht
          rw [htable attrs t ht hmade, hempty.1, hempty.2]
          rfl

/-- Every rule that a ready list tries is no constant rule, and one of the list up to a fresh
reading. -/
theorem mem_candidates_ready {k : Kernel} {subject : Term} {r : Rule} (hfits : l.TableFits k)
    (htidy : l.Tidy)
    (hr : r ∈ (l.ready k.attributes k.structureEpoch subject).candidates subject) :
    r.literal = false ∧ ∃ r' ∈ l.rules, r'.lhs = r.lhs ∧ r'.rhs = r.rhs := by
  obtain ⟨hl, hp⟩ := l.rules_ready k.attributes k.structureEpoch subject
  have hpattern : ∀ r ∈ l.patterns,
      r.literal = false ∧ ∃ r' ∈ l.rules, r'.lhs = r.lhs ∧ r'.rhs = r.rhs := fun r hr =>
    ⟨htidy.pattern r hr, r, List.mem_append_right _ hr, rfl, rfl⟩
  cases ht : (l.ready k.attributes k.structureEpoch subject).table with
  | none =>
      rw [candidates, ht, hp] at hr
      exact hpattern r hr
  | some t =>
      obtain ⟨-, attrs, hmade, -⟩ := hfits.ready subject t ht
      rw [candidates_of_table ht hmade, hl, hp, List.mem_append, List.mem_map] at hr
      rcases hr with ⟨r', hr', rfl⟩ | hr
      · obtain ⟨hmem, hlit⟩ := List.mem_filter.mp hr'
        rw [Bool.not_eq_true'] at hlit
        have hliteral : (reread attrs r').literal = false := by
          rw [reread, (Rule.reads_make attrs r'.lhs r'.rhs r'.kind).literal]
          exact (congrArg _ hlit).trans (Bool.and_false _)
        exact ⟨hliteral, r', List.mem_append_left _ hmem, rfl, rfl⟩
      · exact hpattern r (List.mem_filter.mp hr).1

end RuleList

/-! ## rewriting as a function -/

namespace Evaluator

/-- From every kernel with an invariant, rewriting a subject with a rule of a list succeeds, gives
what a function of its two sides gives, and keeps the invariant. -/
def RewritesBy (r : Evaluator) (c : ContextId) (inv : Kernel → Prop) (rules : List Rule)
    (subject : Term) (answer : Term → Term → Option Term) : Prop :=
  ∀ rule ∈ rules,
    (EvalM.succeeding inv).Answers Term.strip (r.rewrite c rule.lhs rule.rhs subject)
      ((answer rule.lhs rule.rhs).map Term.strip)

variable {c : ContextId} {k : Kernel} {lhs rhs subject : Term} {n : Nat}

/-- What cannot be rewritten under the attributes of a kernel is not rewritten there. -/
theorem rewrite_eq_none {result : Option Term} {k' : Kernel}
    (hnone : ∀ r : Evaluator, (SearchM.whenDone fun k' => k'.Shows k.attributes False).Gives
      (Rule.rewrite (r.surroundings c) lhs rhs subject) (· = none))
    (hrun : ((ofFuel n).rewrite c lhs rhs subject).run k = (.ok result, k')) : result = none := by
  cases n with
  | zero => cases hrun
  | succ n =>
      obtain ⟨found, k₁, hsearch, hshare⟩ :=
        EvalM.run_bind_eq_ok (hrun : ((ofFuel n).rewriteWith c lhs rhs subject).run k = _)
      obtain ⟨s', hsearch⟩ := SearchM.run_run'_eq_ok hsearch
      obtain ⟨-, rfl⟩ := hnone (ofFuel n) {} k found s' k₁ k.shows_attributes hsearch
      cases hshare
      rfl

variable {inv : Kernel → Prop} {l : RuleList} {answer : Term → Term → Option Term}

/-- A rule that applies to no subject like this one under the present attributes gives none. -/
theorem RewritesBy.answer_eq_none {rules : List Rule} {rule : Rule}
    (h : (ofFuel n).RewritesBy c inv rules subject answer) (hk : inv k)
    (hrule : rule ∈ rules)
    (hnone : ∀ {o : Observation SearchM} {env : Surroundings SearchM},
      (o.Gives env.tick fun _ => True) → o.Gives env.attributes (· = k.attributes) →
      o.Gives (Rule.rewrite env rule.lhs rule.rhs subject) (· = none)) :
    (answer rule.lhs rule.rhs).map Term.strip = none := by
  obtain ⟨result, k', hrun, -, hanswer⟩ := h rule hrule k hk
  have hresult : result = none := rewrite_eq_none (fun r => by
    have hshow := show_whenDone r c ⟨k.attributes, fun _ => true, true⟩ False
    exact hnone hshow.tick hshow.attributes) hrun
  rw [← hanswer, hresult]
  rfl

end Evaluator

/-! ## lookups in histories -/

/-- In every history whose dispatch keys are current, a lookup answers what a scan of all rules
answers, constant rules that are none any more in the order of their left-hand sides. -/
theorem Reached.find?_eq_scan {k : Kernel} {l : RuleList} {c : ContextId} {subject : Term} {n : Nat}
    {inv : Kernel → Prop} {answer : Term → Term → Option Term} (h : Reached k l)
    (hkeys : l.KeysCurrent k.attributes) (hsubject : subject.MarkerFree) (hk : inv k)
    (hpure : (Evaluator.ofFuel n).RewritesBy c inv l.rules subject answer) :
    (l.literals.Pairwise fun r s => r.lhs.compare s.lhs = .lt) ∧
      ∃ result k', ((Evaluator.ofFuel n).find? c l subject).run k = (.ok result, k') ∧ inv k' ∧
        result.map Term.strip = (l.scan k.attributes answer subject).map Term.strip := by
  obtain ⟨-, htidy⟩ := h.tidy
  refine ⟨htidy.ascending, ?_⟩
  obtain ⟨hliterals, hpatterns⟩ := l.rules_ready k.attributes k.structureEpoch subject
  have hconst : (l.ready k.attributes k.structureEpoch subject).constant? subject =
      l.constant? subject := by
    rw [RuleList.constant?, hliterals, RuleList.constant?]
  rw [Evaluator.run_find?, RuleList.find?, RuleList.scan, hconst]
  cases hconstant : l.constant? subject with
  | some rhs => exact ⟨some rhs, k, rfl, hk, rfl⟩
  | none =>
      have hmarker := hsubject.isMarker
      have hkey : subject.key.isMarker = false := by
        cases subject with
        | node i f xs => exact (Term.markerFree_node.mp hsubject).2.1.isMarker
        | _ => rfl
      have hscan := l.findSome?_candidates (g := fun lhs rhs => (answer lhs rhs).map Term.strip)
        h.tableFits hconstant
        (fun r hr hlit => hpure.answer_eq_none hk (List.mem_append_left _ hr)
          fun htick hattrs => Rule.gives_none_rewrite_of_isLiteral htick hattrs hlit
            (RuleList.lhs_ne_of_constant? hconstant hr) hmarker)
        (fun r hr hmay => hpure.answer_eq_none hk (List.mem_append_right _ hr)
          fun htick hattrs => by
            unfold Rule.mayMatch at hmay
            split at hmay
            · rename_i key hdispatch
              have hd := (hkeys r hr).resolve_left (by simp [hdispatch])
              exact Rule.gives_none_rewrite_of_dispatchKey htick hattrs (hd ▸ hdispatch) hmay
                hmarker hkey
            · cases hmay)
      have hanswers : ∀ rule ∈ (l.ready k.attributes k.structureEpoch subject).candidates subject,
          (EvalM.succeeding inv).Answers Term.strip
            (rule.applyWith ((Evaluator.ofFuel n).rewrite c) subject)
            ((answer rule.lhs rule.rhs).map Term.strip) := by
        intro rule hrule
        obtain ⟨hliteral, r, hr, hlhs, hrhs⟩ := l.mem_candidates_ready h.tableFits htidy hrule
        rw [Rule.applyWith, hliteral, if_neg Bool.false_ne_true, ← hlhs, ← hrhs]
        exact hpure r hr
      obtain ⟨result, k', hrun, hk', hresult⟩ := Observation.answers_findSomeM? hanswers k hk
      refine ⟨result, k', hrun, hk', ?_⟩
      rw [hresult, hscan, List.map_findSome?]
      rfl

/-- The list of the rule `{x_} :> x`. -/
def unwrapping : RuleList :=
  RuleList.empty.insert (.make (Kernel.new {}).attributes
    (.app .list [.app .pattern [.symbol ⟨40, "x"⟩, .app .blank []]]) (.symbol ⟨40, "x"⟩) .delayed)

/-- With `{x_} :> x` a lookup of `{7}` answers 7, as the rules do when they are scanned. -/
theorem find?_eq_scan_list :
    ∃ k l, Reached k l ∧ ∃ result k',
      ((Evaluator.ofFuel 1).find? ⟨0⟩ l (.app .list [.int 7])).run k = (.ok result, k') ∧
        result.map Term.strip = some (.int 7) := by
  have hreached : Reached Evaluator.newKernel unwrapping :=
    .kernel .context (.insert _ (Rule.made_make _ _ _ _) (.new {}))
  have hkeys : unwrapping.KeysCurrent (Kernel.attributes Evaluator.newKernel) := fun r hr => by
    obtain rfl := List.mem_singleton.mp hr
    exact .inr rfl
  have hpure : (Evaluator.ofFuel 1).RewritesBy ⟨0⟩ (Evaluator.newKernel = ·) unwrapping.rules
      (.app .list [.int 7]) fun _ _ => some (.int 7) := by
    intro rule hr k hk
    obtain rfl := List.mem_singleton.mp hr
    obtain rfl := hk
    exact ⟨some (.int 7), _, rfl, rfl, rfl⟩
  have hsubject : (Term.app .list [.int 7]).MarkerFree := by decide
  obtain ⟨-, result, k', hrun, -, hresult⟩ := hreached.find?_eq_scan hkeys hsubject rfl hpure
  refine ⟨_, _, hreached, ?_⟩
  exact ⟨result, k', hrun, hresult⟩

/-- `{2, 1}[x_] :> x` is made, then `List` becomes orderless.  The rule now applies to `{1, 2}[5]`,
but a lookup does not find it: its dispatch key is still `{2, 1}`. -/
theorem lookup_hides_rule : ∃ k l subject answer, Reached k l ∧ subject.MarkerFree ∧
    (∀ r ∈ l.rules, r.lhs.MarkerFree ∧ r.rhs.MarkerFree) ∧
    (Evaluator.ofFuel 1).RewritesBy ⟨0⟩ (· = k) l.rules subject answer ∧
    ((Evaluator.ofFuel 1).find? ⟨0⟩ l subject).run k = (.ok none, k) ∧
    l.scan k.attributes answer subject = some (.int 5) := by
  have hreached : Reached (Evaluator.newKernel.storeAttributes .list (.ofList [.orderless]))
      (RuleList.empty.insert (.make (Kernel.new {}).attributes
        (.node 0 (.app .list [.int 2, .int 1])
          [.app .pattern [.symbol ⟨40, "x"⟩, .app .blank []]])
        (.symbol ⟨40, "x"⟩) .delayed)) :=
    .kernel (.setAttributes .list (.ofList [.orderless]) _ rfl)
      (.kernel .context (.insert _ (Rule.made_make _ _ _ _) (.new {})))
  refine ⟨_, _, .node 0 (.app .list [.int 1, .int 2]) [.int 5], fun _ _ => some (.int 5), hreached,
    by decide, fun r hr => ?_, fun rule hr k hk => ?_, ?_, rfl⟩
  · obtain rfl := List.mem_singleton.mp hr
    decide
  · obtain rfl := List.mem_singleton.mp hr
    obtain rfl := hk
    exact ⟨some (.int 5), _, rfl, rfl, rfl⟩
  · change ((RuleList.candidates _ _).findSomeM? _ : EvalM (Option Term)).run _ = _
    rw [RuleList.candidates_of_table rfl rfl]
    rfl

end Termwise
