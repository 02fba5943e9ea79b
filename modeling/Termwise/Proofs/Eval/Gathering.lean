import Termwise.Proofs.Eval.Delivery
import Termwise.Proofs.Eval.Match

/-!
# Termwise.Proofs.Eval.Gathering

What is emitted is neither lost nor taken twice, whatever happens in between.  All of it
is read off the history of a run, the list of what happened: the gathers that are open
in a context (`gathersIn`), what they have collected (`valuesOf`), and what each emission
has done (`actsOf`).

A run keeps the books (`Ledger`): the gathers of the kernel are those of the history, and
every emission has done what brings it to where it stands.
-/

namespace Termwise.Gathering

/-! ## reading a history -/

/-- The numbers and patterns of the gathers of a context, after something has happened. -/
def Event.stack (owner : ContextId) (frames : List (Nat × Term)) : Event → List (Nat × Term)
  | .opened c id pattern => if c = owner then (id, pattern) :: frames else frames
  | .closed c _ => if c = owner then frames.tail else frames
  | _ => frames

/-- The value that was appended to a gather. -/
def Event.value? (owner : ContextId) (id : Nat) : Event → Option Term
  | .acted _ (.appended c frame value) => if c = owner ∧ frame.id = id then some value else none
  | _ => none

/-- The action of an emission. -/
def Event.act? (i : Nat) : Event → Option Act
  | .acted j act => if j = i then some act else none
  | _ => none

/-- The context, the value and the tag of an emission that has started. -/
def Event.start? : Event → Option (ContextId × Term × Term)
  | .started c value tag => some (c, value, tag)
  | _ => none

/-- The messages that were sent. -/
def Event.messages : Event → List Message
  | .acted _ (.reported about args) => [⟨Symbol.emit.name, about, args⟩]
  | .other messages => messages
  | _ => []

/-- The numbers and patterns of the gathers that are open in a context, the innermost first. -/
def openIn (owner : ContextId) (history : List Event) : List (Nat × Term) :=
  history.foldl (Event.stack owner) []

/-- The values that were appended to a gather, in order. -/
def valuesOf (owner : ContextId) (id : Nat) (history : List Event) : List Term :=
  history.filterMap (Event.value? owner id)

/-- The gathers that are open in a context, the innermost first, with what was appended to them. -/
def gathersIn (owner : ContextId) (history : List Event) : List GatherFrame :=
  (openIn owner history).map fun g => ⟨g.1, g.2, valuesOf owner g.1 history⟩

/-- The actions of an emission, in order. -/
def actsOf (i : Nat) (history : List Event) : List Act := history.filterMap (Event.act? i)

/-- What happened fits what was before:

* a gather that was opened has a number of its own;
* closing gives what was appended to the innermost gather, in order;
* an emission reads the gathers that are open;
* it misses a gather only if it is not open any more, and appends to one that is open. -/
def Event.Fits (history : List Event) : Event → Prop
  | .opened _ id _ => ∀ owner pattern, .opened owner id pattern ∉ history
  | .closed owner values =>
    values = ((openIn owner history).head?.map fun g => valuesOf owner g.1 history).getD []
  | .acted _ (.reads owner frames) => frames = gathersIn owner history
  | .acted _ (.missed owner frame) => frame.id ∉ (openIn owner history).map Prod.fst
  | .acted _ (.appended owner frame _) => frame.id ∈ (openIn owner history).map Prod.fst
  | _ => True

/-! ## what a run comes to -/

/-- What a run has come to. -/
structure Accounted (answers : Answers) (k : Kernel) (history : List Event) (s : System) :
    Prop where
  /-- Everything that happened fits what was before. -/
  events : ∀ before event after, history = before ++ event :: after → event.Fits before
  /-- The open gathers hold what was appended to them. -/
  gathers : ∀ owner, (s.kernel.context owner).gathers = gathersIn owner history
  /-- Messages were sent by what happened. -/
  messages : s.kernel.messages = (history.flatMap Event.messages).reverse ++ k.messages
  /-- Every emission that was started is there. -/
  started : s.emissions.map (fun e => (e.context, e.value, e.tag)) =
    history.filterMap Event.start?
  emissions : ∀ (i : Nat) (e : Emission), s.emissions[i]? = some e →
    e.Accounted (answers e.context e.tag) (s.kernel.line e.context) (actsOf i history)
  /-- Matches have answered as they may. -/
  answered : ∀ (i : Nat) (e : Emission), s.emissions[i]? = some e →
    ∀ act ∈ actsOf i history, act.Answered (answers e.context e.tag)

/-! ## one thing more -/

variable {owner : ContextId} {acts : List Act} {history : List Event} {event : Event}

theorem openIn_concat (owner : ContextId) (history : List Event) (event : Event) :
    openIn owner (history ++ [event]) = event.stack owner (openIn owner history) := by
  rw [openIn, List.foldl_append, List.foldl_cons, List.foldl_nil, openIn]

theorem valuesOf_concat (owner : ContextId) (id : Nat) (history : List Event) (event : Event) :
    valuesOf owner id (history ++ [event]) =
      valuesOf owner id history ++ (event.value? owner id).toList := by
  rw [valuesOf, List.filterMap_append, valuesOf]
  cases h : event.value? owner id <;> simp [h]

theorem actsOf_concat (i : Nat) (history : List Event) (event : Event) :
    actsOf i (history ++ [event]) = actsOf i history ++ (event.act? i).toList := by
  rw [actsOf, List.filterMap_append, actsOf]
  cases h : event.act? i <;> simp [h]

theorem actsOf_concat_self (i : Nat) (history : List Event)
    (result : Except EvalError (Act × Option Stage)) :
    actsOf i (history ++ [.ofAction i result]) = actsOf i history ++ taken result := by
  rw [actsOf_concat]
  match result with
  | .ok (act, _) => simp [Event.ofAction, Event.act?, taken]
  | .error e => simp [Event.ofAction, Event.act?, taken]

theorem actsOf_concat_of_ne {i j : Nat} (hne : i ≠ j) (history : List Event)
    (result : Except EvalError (Act × Option Stage)) :
    actsOf j (history ++ [.ofAction i result]) = actsOf j history := by
  rw [actsOf_concat]
  match result with
  | .ok (act, _) => simp [Event.ofAction, Event.act?, hne]
  | .error e => simp [Event.ofAction, Event.act?]

/-- Nothing but opening, closing and appending makes a difference to gathers. -/
theorem gathersIn_concat (owner : ContextId) (history : List Event)
    (hstack : ∀ gs, event.stack owner gs = gs) (hvalue : ∀ id, event.value? owner id = none) :
    gathersIn owner (history ++ [event]) = gathersIn owner history := by
  simp only [gathersIn, openIn_concat, valuesOf_concat, hstack, hvalue, Option.toList_none,
    List.append_nil]

/-- A value that is appended to a gather is the last of its values. -/
theorem gathersIn_appended (owner : ContextId) (history : List Event) (i : Nat) (c : ContextId)
    (frame : GatherFrame) (value : Term) :
    gathersIn owner (history ++ [.acted i (.appended c frame value)]) =
      if c = owner then (gathersIn owner history).map fun g =>
        if g.id = frame.id then { g with values := g.values ++ [value] } else g
      else gathersIn owner history := by
  simp only [gathersIn, openIn_concat, valuesOf_concat, Event.stack, Event.value?]
  by_cases hc : c = owner
  · rw [if_pos hc, List.map_map]
    refine List.map_congr_left fun g _ => ?_
    by_cases hid : frame.id = g.1
    · simp [hc, hid]
    · simp [hid, Ne.symm hid]
  · simp [hc]

/-- If everything fits and so does what happens next, everything fits. -/
theorem fits_concat
    (h : ∀ before event after, history = before ++ event :: after → event.Fits before)
    (hevent : event.Fits history) (before : List Event) (event' : Event) (after : List Event)
    (heq : history ++ [event] = before ++ event' :: after) : event'.Fits before := by
  rcases List.eq_nil_or_concat after with rfl | ⟨after, last, rfl⟩
  · obtain ⟨rfl, hlast⟩ := List.append_inj' heq rfl
    obtain rfl := List.singleton_inj.mp hlast
    exact hevent
  · rw [List.concat_eq_append, ← List.cons_append, ← List.append_assoc] at heq
    exact h before event' after (List.append_inj' heq rfl).1

/-! ## gathers that were opened -/

theorem mem_foldl_stack {g : Nat × Term} (owner : ContextId) :
    ∀ (history : List Event) (frames : List (Nat × Term)),
      g ∈ history.foldl (Event.stack owner) frames →
        g ∈ frames ∨ .opened owner g.1 g.2 ∈ history
  | [], frames, h => .inl h
  | event :: history, frames, h => by
      rcases mem_foldl_stack owner history _ h with h | h
      · match event with
        | .opened c id pattern =>
            rw [Event.stack] at h
            split at h
            next hc =>
              subst hc
              rcases List.mem_cons.mp h with rfl | h
              · exact .inr (List.mem_cons_self ..)
              · exact .inl h
            next => exact .inl h
        | .closed c _ =>
            rw [Event.stack] at h
            split at h
            · exact .inl (List.mem_of_mem_tail h)
            · exact .inl h
        | .spawned .. | .started .. | .acted .. | .failed .. | .other .. => exact .inl h
      · exact .inr (List.mem_cons_of_mem _ h)

/-- A gather that is open was opened. -/
theorem exists_opened {id : Nat} (h : id ∈ (openIn owner history).map Prod.fst) :
    ∃ pattern, .opened owner id pattern ∈ history := by
  obtain ⟨g, hg, rfl⟩ := List.mem_map.mp h
  rcases mem_foldl_stack owner history [] hg with h | h
  · cases h
  · exact ⟨g.2, h⟩

/-- Nothing was appended to a gather that was not opened. -/
theorem valuesOf_eq_nil {id : Nat}
    (hfits : ∀ before event after, history = before ++ event :: after → event.Fits before)
    (hnew : ∀ pattern, .opened owner id pattern ∉ history) : valuesOf owner id history = [] := by
  refine List.filterMap_eq_nil_iff.mpr fun event hevent => ?_
  obtain ⟨before, after, rfl⟩ := List.append_of_mem hevent
  have hfit := hfits before event after rfl
  match event with
  | .acted i (.appended c frame value) =>
      rw [Event.value?]
      split
      next h =>
        obtain ⟨rfl, rfl⟩ := h
        obtain ⟨pattern, hopened⟩ := exists_opened hfit
        exact absurd (List.mem_append_left _ hopened) (hnew pattern)
      next => rfl
  | .acted i (.reads ..) | .acted i (.refused ..) | .acted i (.accepted ..)
  | .acted i (.missed ..) | .acted i (.reported ..) => rfl
  | .opened .. | .closed .. | .spawned .. | .started .. | .failed .. | .other .. => rfl

/-! ## gathers of a kernel -/

theorem gathers_gatherBegin (k : Kernel) {c : ContextId} (pattern : Term)
    (hc : c.index < k.contexts.size) (owner : ContextId) :
    ((k.gatherBegin c pattern).context owner).gathers =
      if c = owner then ⟨k.frames, pattern, []⟩ :: (k.context owner).gathers
      else (k.context owner).gathers := by
  change ((k.updateContext c _).context owner).gathers = _
  split
  next h =>
    subst h
    rw [k.context_updateContext_self _ hc]
  next h => rw [k.context_updateContext_of_ne _ h]

/-- A context that does not exist has no gathers. -/
theorem gathers_of_size_le (k : Kernel) {c : ContextId} (hc : k.contexts.size ≤ c.index) :
    (k.context c).gathers = [] := by
  simp [Kernel.context, Array.getD_eq_getD_getElem?, Array.getElem?_eq_none hc, default]

theorem gathers_gatherEnd (k : Kernel) (c owner : ContextId) :
    ((k.gatherEnd c).2.context owner).gathers =
      if c = owner then (k.context owner).gathers.tail else (k.context owner).gathers := by
  unfold Kernel.gatherEnd
  split
  next frame frames hframes =>
    have hc : c.index < k.contexts.size := Nat.lt_of_not_le fun hout => by
      rw [gathers_of_size_le k hout] at hframes
      cases hframes
    split
    next h =>
      subst h
      rw [k.context_updateContext_self _ hc, hframes, List.tail_cons]
    next h => rw [k.context_updateContext_of_ne _ h]
  next hframes =>
    split
    next h => rw [← h, hframes, List.tail_nil]
    next => rfl

theorem values_gatherEnd (k : Kernel) (c : ContextId) :
    (k.gatherEnd c).1 = ((k.context c).gathers.head?.map GatherFrame.values).getD [] := by
  unfold Kernel.gatherEnd
  split
  next h => rw [h, List.head?_cons, Option.map_some, Option.getD_some]
  next h => rw [h, List.head?_nil, Option.map_none, Option.getD_none]

theorem gathers_collect (k : Kernel) (c owner : ContextId) (id : Nat) (value : Term) :
    ((k.collect c id value).context owner).gathers =
      if c = owner then (k.context owner).gathers.map fun g =>
        if g.id = id then { g with values := g.values ++ [value] } else g
      else (k.context owner).gathers := by
  unfold Kernel.collect
  split
  next h =>
    subst h
    by_cases hc : c.index < k.contexts.size
    · rw [k.context_updateContext_self _ hc]
    · have hout := Nat.le_of_not_lt hc
      rw [k.context_updateContext_of_size_le _ c hout, gathers_of_size_le k hout, List.map_nil]
  next h => rw [k.context_updateContext_of_ne _ h]

theorem isOpen_iff (k : Kernel) (owner : ContextId) (id : Nat)
    (h : (k.context owner).gathers = gathersIn owner history) :
    k.isOpen owner id = true ↔ id ∈ (openIn owner history).map Prod.fst := by
  rw [Kernel.isOpen, h, gathersIn, List.any_map, List.any_eq_true]
  simp [Function.comp]

/-! ## steps -/

section

variable {answers : Answers} {s t : System}

theorem Step.frames_le (hstep : Step answers s event t) : s.kernel.frames ≤ t.kernel.frames := by
  cases hstep with
  | opens => exact Nat.le_succ _
  | closes c => exact Nat.le_of_eq (s.kernel.gatherEnd_fields c).2.2.2.symm
  | acts _ _ _ hact => cases did_of_act hact <;> exact Nat.le_refl _
  | others h => exact h.frames
  | _ => exact Nat.le_refl _

theorem Step.messages_eq (hstep : Step answers s event t) :
    t.kernel.messages = event.messages.reverse ++ s.kernel.messages := by
  cases hstep with
  | closes c => exact (s.kernel.gatherEnd_fields c).2.2.1
  | acts _ _ _ hact => cases did_of_act hact <;> rfl
  | others h => exact h.messages
  | _ => rfl

end

/-! ## keeping the books -/

/-- What a run keeps of an emission that has taken some actions. -/
structure Stands (answers : Answers) (k : Kernel) (e : Emission) (acts : List Act) : Prop where
  context : e.context.index < k.contexts.size
  accounts : e.status.Accounts (answers e.context e.tag) (k.line e.context) e.value e.tag acts
  answered : ∀ act ∈ acts, act.Answered (answers e.context e.tag)

/-- An emission that takes an action stands as it should. -/
theorem Stands.act {answers : Answers} {k k' : Kernel} {e : Emission} {stage : Stage}
    {answer : Except EvalError Bool} {result : Except EvalError (Act × Option Stage)}
    (h : Stands answers k e acts) (hstage : e.status = .running stage)
    (hanswer : stage.Answered (answers e.context e.tag) answer)
    (hact : stage.act answer e.value e.tag k = (result, k')) :
    Stands answers k' { e with status := .after result } (acts ++ taken result) := by
  obtain ⟨hsize, hline⟩ := (did_of_act hact).keepsLines
  have haccounts := h.accounts
  rw [hstage] at haccounts
  have hnext := Stage.Follows.act haccounts hanswer e.value e.tag k
  have htaken := answered_taken hanswer e.value e.tag k
  rw [hact] at hnext htaken
  refine ⟨Nat.lt_of_lt_of_le h.context hsize, ?_, List.forall_mem_append.mpr
    ⟨h.answered, htaken⟩⟩
  change (Status.after result).Accounts (answers e.context e.tag) (k'.line e.context) e.value e.tag
    (acts ++ taken result)
  rw [hline e.context h.context]
  exact hnext

/-- What a run from a kernel keeps. -/
structure Ledger (answers : Answers) (k : Kernel) (history : List Event) (s : System) :
    Prop where
  events : ∀ before event after, history = before ++ event :: after → event.Fits before
  gathers : ∀ owner, (s.kernel.context owner).gathers = gathersIn owner history
  /-- The kernel counts the gathers that were opened. -/
  counted : ∀ owner id pattern, .opened owner id pattern ∈ history → id < s.kernel.frames
  messages : s.kernel.messages = (history.flatMap Event.messages).reverse ++ k.messages
  started : s.emissions.map (fun e => (e.context, e.value, e.tag)) =
    history.filterMap Event.start?
  emissions : ∀ (i : Nat) (e : Emission), s.emissions[i]? = some e →
    Stands answers s.kernel e (actsOf i history)
  /-- Emissions that are to come have done nothing. -/
  later : ∀ i, s.emissions.length ≤ i → actsOf i history = []

namespace Ledger

variable {answers : Answers} {k : Kernel} {s t : System}

theorem nil (hnone : ∀ owner, (k.context owner).gathers = []) : Ledger answers k [] ⟨k, []⟩ where
  events before event after h := by
    cases before <;> cases h
  gathers := hnone
  counted _ _ _ h := nomatch h
  messages := rfl
  started := rfl
  emissions i e h := nomatch h
  later _ _ := rfl

/-- The values of a gather are what was appended to it. -/
theorem values_gatherEnd (h : Ledger answers k history s) (c : ContextId) :
    (s.kernel.gatherEnd c).1 =
      ((openIn c history).head?.map fun g => valuesOf c g.1 history).getD [] := by
  rw [Gathering.values_gatherEnd, h.gathers, gathersIn, List.head?_map, Option.map_map]
  rfl

/-- What happens next fits. -/
theorem fits (h : Ledger answers k history s) (hstep : Step answers s event t) :
    event.Fits history := by
  cases hstep with
  | opens c pattern hc => exact fun owner pattern h' => Nat.lt_irrefl _ (h.counted _ _ _ h')
  | closes c => exact h.values_gatherEnd c
  | acts he hstage hanswer hact =>
      cases did_of_act hact with
      | reads owner => exact h.gathers owner
      | missed owner frame _ hclosed => exact (isOpen_iff _ _ _ (h.gathers owner)).not.mp hclosed
      | appended owner frame _ hopen => exact (isOpen_iff _ _ _ (h.gathers owner)).mp hopen
      | _ => trivial
  | _ => trivial

theorem gathers_step (h : Ledger answers k history s) (hstep : Step answers s event t)
    (owner : ContextId) :
    (t.kernel.context owner).gathers = gathersIn owner (history ++ [event]) := by
  cases hstep with
  | opens c pattern hc =>
      -- nothing was appended to the new gather so far
      have hnew : valuesOf c s.kernel.frames history = [] := valuesOf_eq_nil h.events
        fun pattern h' => Nat.lt_irrefl _ (h.counted _ _ _ h')
      rw [gathers_gatherBegin _ _ hc, h.gathers]
      simp only [gathersIn, openIn_concat, valuesOf_concat, Event.stack, Event.value?,
        Option.toList_none, List.append_nil]
      split
      next hc => rw [List.map_cons, ← hc, hnew]
      next => rfl
  | closes c =>
      rw [gathers_gatherEnd, h.gathers]
      simp only [gathersIn, openIn_concat, valuesOf_concat, Event.stack, Event.value?,
        Option.toList_none, List.append_nil]
      split
      · rw [List.map_tail]
      · rfl
  | spawns c hc =>
      rw [gathersIn_concat owner history (fun _ => rfl) fun _ => rfl, ← h.gathers]
      exact (undisturbed_spawnChild s.kernel c).gathers owner
  | starts =>
      rw [gathersIn_concat owner history (fun _ => rfl) fun _ => rfl]
      exact h.gathers owner
  | others hk =>
      rw [gathersIn_concat owner history (fun _ => rfl) fun _ => rfl, ← h.gathers]
      exact hk.gathers owner
  | acts he hstage hanswer hact =>
      cases did_of_act hact with
      | appended c frame stage? hopen =>
          rw [gathers_collect, h.gathers]
          exact (gathersIn_appended owner history _ c frame _).symm
      | _ =>
          rw [gathersIn_concat owner history (fun _ => rfl) fun _ => rfl]
          exact h.gathers owner

theorem counted_step (h : Ledger answers k history s) (hstep : Step answers s event t)
    (owner : ContextId) (id : Nat) (pattern : Term)
    (hopened : .opened owner id pattern ∈ history ++ [event]) :
    id < t.kernel.frames := by
  rcases List.mem_append.mp hopened with hopened | hlast
  · exact Nat.lt_of_lt_of_le (h.counted owner id pattern hopened) hstep.frames_le
  · cases hstep with
    | opens c pattern hc =>
        cases List.mem_singleton.mp hlast
        exact Nat.lt_succ_self _
    | @acts i e stage answer result =>
        rw [List.mem_singleton] at hlast
        match result with
        | .ok _ => cases hlast
        | .error _ => cases hlast
    | _ => cases List.mem_singleton.mp hlast

/-- Messages are sent by what happens. -/
theorem messages_step (h : Ledger answers k history s) (hstep : Step answers s event t) :
    t.kernel.messages = ((history ++ [event]).flatMap Event.messages).reverse ++ k.messages := by
  rw [hstep.messages_eq, h.messages, List.flatMap_append, List.flatMap_singleton,
    List.reverse_append, List.append_assoc]

/-- The emissions are those that were started. -/
theorem started_step (h : Ledger answers k history s) (hstep : Step answers s event t) :
    t.emissions.map (fun e => (e.context, e.value, e.tag)) =
      (history ++ [event]).filterMap Event.start? := by
  rw [List.filterMap_append, ← h.started]
  cases hstep with
  | starts => rw [List.map_append]; rfl
  | @acts i e stage answer result k' he =>
      have hnone : [Event.ofAction i result].filterMap Event.start? = [] := by
        match result with
        | .ok _ => rfl
        | .error _ => rfl
      rw [hnone, List.append_nil]
      refine List.ext_getElem? fun j => ?_
      rw [List.getElem?_map, List.getElem?_map, List.getElem?_set]
      split
      next hij =>
        rw [← hij, if_pos (List.getElem?_eq_some_iff.mp he).1, he]
        rfl
      next => rfl
  | _ => exact (List.append_nil _).symm

/-- An emission that does nothing in a step stands as it did. -/
theorem stands_of_actsOf_eq (h : Ledger answers k history s) (hstep : Step answers s event t)
    {i : Nat} {e : Emission} (he : s.emissions[i]? = some e)
    (hacts : actsOf i (history ++ [event]) = actsOf i history) :
    Stands answers t.kernel e (actsOf i (history ++ [event])) := by
  have hstands := h.emissions i e he
  obtain ⟨hsize, hline⟩ := hstep.keepsLines
  rw [hacts]
  refine ⟨Nat.lt_of_lt_of_le hstands.context hsize, ?_, hstands.answered⟩
  rw [hline e.context hstands.context]
  exact hstands.accounts

/-- What emissions have done brings them to where they stand. -/
theorem emissions_step (h : Ledger answers k history s) (hstep : Step answers s event t) (i : Nat)
    (e : Emission) (he : t.emissions[i]? = some e) :
    Stands answers t.kernel e (actsOf i (history ++ [event])) := by
  have hstays := fun he => h.stands_of_actsOf_eq hstep (i := i) (e := e) he
  cases hstep with
  | starts c value tag hc =>
      rw [List.getElem?_append] at he
      split at he
      next => exact hstays he (by simp [actsOf_concat, Event.act?])
      next hi =>
        rw [List.getElem?_singleton] at he
        split at he <;> cases he
        rw [actsOf_concat, h.later i (Nat.le_of_not_lt hi)]
        exact ⟨hc, ⟨[], rfl, rfl, rfl⟩, fun _ h => nomatch h⟩
  | acts hold hstage hanswer hact =>
      rw [List.getElem?_set] at he
      split at he
      next hij =>
        subst hij
        split at he <;> cases he
        rw [actsOf_concat_self]
        exact (h.emissions _ _ hold).act hstage hanswer hact
      next hij => exact hstays he (actsOf_concat_of_ne hij history _)
  | _ => exact hstays he (by simp [actsOf_concat, Event.act?])

theorem later_step (h : Ledger answers k history s) (hstep : Step answers s event t) (i : Nat)
    (hi : t.emissions.length ≤ i) : actsOf i (history ++ [event]) = [] := by
  cases hstep with
  | starts =>
      have hlast : s.emissions.length ≤ i := by
        rw [List.length_append] at hi
        exact Nat.le_trans (Nat.le_add_right ..) hi
      simp [actsOf_concat, Event.act?, h.later i hlast]
  | acts he =>
      rw [List.length_set] at hi
      have hne := Nat.ne_of_lt (Nat.lt_of_lt_of_le (List.getElem?_eq_some_iff.mp he).1 hi)
      rw [actsOf_concat_of_ne hne, h.later i hi]
  | _ => simp [actsOf_concat, Event.act?, h.later i hi]

/-- A step keeps the books. -/
theorem step (h : Ledger answers k history s) (hstep : Step answers s event t) :
    Ledger answers k (history ++ [event]) t where
  events := fits_concat h.events (h.fits hstep)
  gathers := h.gathers_step hstep
  counted := h.counted_step hstep
  messages := h.messages_step hstep
  started := h.started_step hstep
  emissions := h.emissions_step hstep
  later := h.later_step hstep

/-- So does a run. -/
theorem run (hnone : ∀ owner, (k.context owner).gathers = [])
    (hrun : Run answers ⟨k, []⟩ history s) : Ledger answers k history s := by
  induction hrun with
  | nil => exact .nil hnone
  | snoc _ hstep ih => exact ih.step hstep

theorem accounted (h : Ledger answers k history s) : Accounted answers k history s where
  events := h.events
  gathers := h.gathers
  messages := h.messages
  started := h.started
  emissions i e he := (h.emissions i e he).accounts.accounted
  answered i e he := (h.emissions i e he).answered

end Ledger

/-- Nothing that is emitted is lost or taken twice: in every run from a kernel without open gathers,
closing a gather gives what was appended to it, in order, and an emission that has returned has
either appended its value once, to the first gather that accepted the tag and was still open, or
changed no gather and sent one message.  An emission that has failed has appended nothing.

Wherever a run stands, calling `emit` continues it: the call is an emission that ends as the call
does, and the answers it goes by are those of its matches. -/
theorem run_accounted {answers : Answers} {k : Kernel} {history : List Event} {s : System}
    (hnone : ∀ owner, (k.context owner).gathers = []) (hrun : Run answers ⟨k, []⟩ history s) :
    Accounted answers k history s ∧
      ∀ (r : Evaluator) (c : ContextId), c.index < s.kernel.contexts.size →
        (∀ t, Steps answers c (r.evaluate c t)) →
        (∀ lhs rhs t, Steps answers c (r.rewrite c lhs rhs t)) →
        ∀ value tag, (∀ pattern k, answers c tag pattern ((r.isMatch c tag pattern).run k).1) →
          ∃ history' later, Run answers ⟨k, []⟩ (history ++ history')
            ⟨((r.emit c value tag).run s.kernel).2, s.emissions ++
              ⟨c, value, tag, .ofResult ((r.emit c value tag).run s.kernel).1⟩ :: later⟩ := by
  refine ⟨(Ledger.run hnone hrun).accounted,
    fun r c hc hevaluate hrewrite value tag hanswered => ?_⟩
  obtain ⟨history', later, hrun'⟩ :=
    exists_run_emit ⟨steps_isMatch hevaluate hrewrite tag, hanswered⟩ value s hc
  exact ⟨history', later, hrun.trans hrun'⟩

/-- A gather is closed while its pattern accepts the tag, and another one is opened. -/
def swap : List Event :=
  [.opened ⟨0⟩ 0 .null, .started ⟨0⟩ (.int 1) .null, .acted 0 (.reads ⟨0⟩ [⟨0, .null, []⟩]),
    .acted 0 (.accepted ⟨0⟩ ⟨0, .null, []⟩), .closed ⟨0⟩ [], .opened ⟨0⟩ 1 .null,
    .acted 0 (.missed ⟨0⟩ ⟨0, .null, []⟩), .acted 0 (.reported "nogather2" [.int 1, .null])]

/-- An evaluator that closes a gather and opens another one, whatever it evaluates. -/
def swapping : Evaluator where
  evaluate c t := do
    modify fun k => (k.gatherEnd c).2.gatherBegin c (.app .blank [])
    return t
  rewrite _ _ _ _ := return none

/-- What it answers. -/
def swappingAnswers : Answers := fun c tag pattern answer =>
  ∃ k, ((swapping.isMatch c tag pattern).run k).1 = answer

theorem steps_swapping (c : ContextId) (t : Term) :
    Steps swappingAnswers c (swapping.evaluate c t) := fun k hc =>
  (moves_gatherEnd k c).trans
    (moves_gatherBegin _ c (.app .blank []) (Nat.lt_of_lt_of_le hc (keepsLines_gatherEnd k c).1))

/-- Neither of two gathers that are swapped during a match gets the value.  An evaluator that swaps
gathers in every evaluation may go on from there. -/
theorem run_accounted_of_swap : ∃ s, (s.kernel.gatherEnd ⟨0⟩).1 = [] ∧
    Run swappingAnswers ⟨Evaluator.newKernel, []⟩ swap s ∧
    Accounted swappingAnswers Evaluator.newKernel swap s ∧
    ∃ history later, Run swappingAnswers ⟨Evaluator.newKernel, []⟩ (swap ++ history)
      ⟨((swapping.emit ⟨0⟩ (.int 2) .null).run s.kernel).2, s.emissions ++
        ⟨⟨0⟩, .int 2, .null,
          .ofResult ((swapping.emit ⟨0⟩ (.int 2) .null).run s.kernel).1⟩ :: later⟩ := by
  have hnone : ∀ owner, (Evaluator.newKernel.context owner).gathers = [] := by
    rintro ⟨_ | i⟩
    · rfl
    · exact gathers_of_size_le _ (Nat.le_add_left 1 i)
  have haccepts : swappingAnswers ⟨0⟩ .null .null (.ok true) := ⟨Evaluator.newKernel, rfl⟩
  have hopened := (@Run.nil swappingAnswers ⟨Evaluator.newKernel, []⟩).snoc
    (.opens ⟨0⟩ .null (by decide))
  have hstarted := hopened.snoc (.starts ⟨0⟩ (.int 1) .null (by decide))
  have hread := hstarted.snoc (@Step.acts _ _ 0 _ _ (.ok true) _ _ rfl rfl trivial rfl)
  have haccepted := hread.snoc (@Step.acts _ _ 0 _ _ (.ok true) _ _ rfl rfl haccepts rfl)
  have hclosed := haccepted.snoc (.closes ⟨0⟩)
  have hreopened := hclosed.snoc (.opens ⟨0⟩ .null (by decide))
  have hmissed := hreopened.snoc (@Step.acts _ _ 0 _ _ (.ok true) _ _ rfl rfl trivial rfl)
  have hreported := hmissed.snoc (@Step.acts _ _ 0 _ _ (.ok true) _ _ rfl rfl trivial rfl)
  obtain ⟨haccounted, hemit⟩ := run_accounted hnone hreported
  exact ⟨_, rfl, hreported, haccounted, hemit swapping ⟨0⟩ (by decide) (steps_swapping ⟨0⟩)
    (fun _ _ _ k _ => .refl k) (.int 2) .null fun _ k => ⟨k, rfl⟩⟩

end Termwise.Gathering
