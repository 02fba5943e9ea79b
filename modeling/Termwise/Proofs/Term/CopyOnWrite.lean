import Mathlib.Data.List.Induction
import Termwise.Proofs.Term.Agreement

/-!
# Termwise.Proofs.Term.CopyOnWrite

Copying on write is invisible: a program does the same on handles of shared nodes and on
terms that share nothing (`State.Shows.run`), and what nodes remember in the end is right.
-/

namespace Termwise.Shared

open Memory Memory.Heap

variable {hasher : List Token → UInt64}

/-! ## programs -/

/-- Whether a node that is known to be evaluated after an operation is unchanged by it, and was
known to be evaluated before or was marked by it. -/
def Stamped (st : State) (op : Op) (st' : State) : Prop :=
  ∀ {id n'}, st'.store.read id = some n' → n'.evaluated ≠ 0 →
    Unchanged st.store st'.store id ∧
      ((∃ n, st.store.read id = some n ∧ n.evaluated = n'.evaluated) ∨
        ∃ r, op = .mark r n'.evaluated ∧ st.places.get? r = some (.node id))

/-- Whether the values of a program show given terms. -/
def State.Shows (hasher : List Token → UInt64) (st : State) (p : Sheet) : Prop :=
  Agrees hasher st.store st p [] []

theorem Agrees.shows {start : Store} {st : State} {p : Sheet} (h : Agrees hasher start st p [] []) :
    st.Shows hasher p := { h with ages := Ages.refl _ }

/-- One operation on handles does what it does on terms. -/
theorem State.Shows.step {st : State} {p : Sheet} (h : st.Shows hasher p) (op : Op) :
    Option.Rel (fun st' p' => st'.Shows hasher p' ∧ Stamped st op st') (st.step hasher op)
      (p.step op) := by
  have hages : ∀ {st' p'}, Agrees hasher st.store st' p' [] [] →
      st'.Shows hasher p' ∧ Stamped st op st' := fun h' =>
    ⟨h'.shows, fun hread hstamp => by
      obtain ⟨hsame, hbefore⟩ := h'.ages hread hstamp
      exact ⟨hsame, .inl hbefore⟩⟩
  cases op with
  | blank head arity =>
      exact rel_bind (h.operand head) fun a b h₁ => .some (hages (h₁.addNulls arity).newNode)
  | call head args =>
      exact rel_bind (h.operand head) fun a b h₁ => rel_bind (h₁.operands args) fun c d h₂ =>
        .some (hages h₂.newNode)
  | ofItems items =>
      refine rel_bind (h.operands items) fun a b h₁ => ?_
      obtain ⟨u, us, hcall, h₂⟩ := h₁.filled
      rw [List.nil_append] at hcall
      dsimp only
      rw [hcall]
      exact .some (hages h₂.newNode)
  | clone r =>
      exact rel_bind (h.operand (.copy r)) fun a b h₁ => .some (hages h₁.add)
  | drop r =>
      refine rel_bind (h.operand (.move r)) fun a b h₁ => ?_
      obtain ⟨s', hdrop, h₂⟩ := Agrees.exists_dropAll h₁.toHolds (show ShowsAll _ [] [] from rfl)
      dsimp only
      rw [hdrop]
      exact .some (hages h₂)
  | item r i =>
      refine rel_bind (h.node? r) fun id t hnode => ?_
      obtain ⟨f, xs, items, rfl, -⟩ := shows_node_iff.mp hnode.1
      obtain ⟨n, s', hread, hretain, h₁⟩ := h.exists_item i hnode.1
      simp only [hread, hretain, Option.bind_eq_bind, Option.bind_some]
      exact .some (hages h₁)
  | set r i value =>
      refine rel_bind (h.takeNode? r) fun a b h₁ => rel_bind (h₁.operand value) fun c d h₂ => ?_
      obtain ⟨f, xs, hcall⟩ := h₁.exists_call
      rw [hcall] at h₂
      obtain ⟨given, hset, h₃⟩ := h₂.exists_set i
      dsimp only
      rw [hset, hcall]
      exact .some (hages h₃.add)
  | resize r arity =>
      refine rel_bind (h.takeNode? r) fun a b h₁ => ?_
      obtain ⟨f, xs, hcall⟩ := h₁.exists_call
      rw [hcall] at h₁
      obtain ⟨given, hresize, h₂⟩ := h₁.exists_resize arity
      dsimp only
      rw [hresize, hcall]
      exact .some (hages h₂.add)
  | append r args =>
      refine rel_bind (h.takeNode? r) fun a b h₁ => rel_bind (h₁.operands args) fun c d h₂ => ?_
      obtain ⟨f, xs, hcall⟩ := h₁.exists_call
      rw [hcall] at h₂
      obtain ⟨given, happend, h₃⟩ := Agrees.exists_append
        (show Agrees _ _ _ _ (.node a.1 :: c.1) (.call f xs :: d.1) from h₂)
      dsimp only
      rw [happend, hcall]
      exact .some (hages h₃.add)
  | lend r =>
      refine rel_bind (h.takeNode? r) fun a b h₁ => ?_
      obtain ⟨f, xs, hcall⟩ := h₁.exists_call
      rw [hcall] at h₁
      obtain ⟨id, given, hlend, h₂⟩ := h₁.exists_lend
      dsimp only
      rw [hlend, hcall]
      exact .some (hages h₂)
  | giveBack items =>
      refine rel_bind (h.operands items) fun a b h₁ => ?_
      have hlent := h₁.lent
      dsimp only
      cases hst : a.2.lent with
      | nil =>
          rw [hst] at hlent
          rw [← hlent]
          exact .none
      | cons id rest =>
          rw [hst] at hlent
          rw [← hlent]
          exact .some (hages (h₁.giveBack hst hlent.symm))
  | range r first len =>
      refine rel_bind (h.node? r) fun id t hnode => ?_
      obtain ⟨f, xs, items, rfl, -⟩ := shows_node_iff.mp hnode.1
      obtain ⟨given, hrange, h₁⟩ := h.exists_range first len hnode.1
      rw [hrange]
      exact .some (hages h₁)
  | intoItems r =>
      refine rel_bind (h.takeNode? r) fun a b h₁ => ?_
      obtain ⟨f, xs, hcall⟩ := h₁.exists_call
      rw [hcall] at h₁
      obtain ⟨given, hinto, h₂⟩ := h₁.exists_intoItems
      dsimp only
      rw [hinto, hcall]
      exact .some (hages h₂.addAll)
  | hash r =>
      refine rel_bind (h.node? r) fun id t hnode => ?_
      obtain ⟨s', hhash, hrehashed⟩ := exists_hash h.counted h.hashed hnode.1
      rw [hhash]
      exact .some (hages (h.rehash hrehashed))
  | mark r generation =>
      refine rel_bind (h.node? r) fun id t hnode => ?_
      obtain ⟨s', hmark, h₁, hsame⟩ := h.exists_mark generation hnode.1
      rw [hmark]
      refine .some ⟨h₁, fun {a n'} hread _ => ⟨(hsame a).1, ?_⟩⟩
      obtain ⟨rfl, rfl⟩ | hbefore := (hsame a).2 n' hread
      · exact .inr ⟨r, rfl, hnode.2⟩
      · exact .inl ⟨n', hbefore, rfl⟩
  | equal r other =>
      refine rel_bind (h.node? r) fun id t hnode => rel_bind (h.node? other) fun id' t' hnode' => ?_
      obtain ⟨s', hequal, hrehashed⟩ := exists_equal h.counted h.hashed hnode.1 hnode'.1
      rw [hequal]
      exact .some (hages (h.rehash hrehashed))

theorem State.shows_empty (hasher : List Token → UInt64) : State.Shows hasher {} {} where
  counted := counted_empty Node.refs
  hashed hread := by simp [Heap.read, cell?] at hread
  places := Places.agree_empty
  lent := rfl
  free _ hid := nomatch hid
  nodup := .nil
  ages := Ages.refl _
  hand := rfl

/-- A program on handles does what it does on terms. -/
theorem State.Shows.run {st : State} {p : Sheet} (h : st.Shows hasher p) (ops : List Op) :
    Option.Rel (State.Shows hasher) (st.run hasher ops) (p.run ops) :=
  rel_foldlM (fun _ _ op h => rel_imp (h.step op) fun _ _ => And.left) ops h

/-- A program that begins with another one comes to the point where that one ends. -/
theorem State.run_append (st : State) (ops more : List Op) :
    st.run hasher (ops ++ more) = (st.run hasher ops).bind (·.run hasher more) :=
  List.foldlM_append

/-- A node that remembers a generation was marked with it, and has not changed since. -/
theorem State.exists_mark {ops : List Op} {st : State} (hrun : State.run hasher {} ops = some st)
    {id : Nat} {n : Node} (hread : st.store.read id = some n) (hstamp : n.evaluated ≠ 0) :
    ∃ before r after st₀, ops = before ++ .mark r n.evaluated :: after ∧
      State.run hasher {} before = some st₀ ∧ st₀.places.get? r = some (.node id) ∧
      ∀ k ≤ after.length, ∃ stₖ,
        State.run hasher {} (before ++ .mark r n.evaluated :: after.take k) = some stₖ ∧
          Unchanged st₀.store stₖ.store id := by
  induction ops using List.reverseRecOn generalizing st n with
  | nil =>
      cases hrun
      simp [Heap.read, cell?] at hread
  | append_singleton ops op ih =>
      have hlast := hrun
      rw [State.run_append] at hlast
      obtain ⟨st₁, hrun₁, hstep⟩ := Option.bind_eq_some_iff.mp hlast
      replace hstep : st₁.step hasher op = some st := by simpa [State.run] using hstep
      have hrel := (State.shows_empty hasher).run ops
      rw [hrun₁] at hrel
      obtain ⟨p₁, -, h₁⟩ := exists_of_rel hrel
      have hnext := h₁.step op
      rw [hstep] at hnext
      obtain ⟨p, -, -, hstamped⟩ := exists_of_rel hnext
      -- the last operation left the node as it was; either the node was marked before, or by it
      obtain ⟨hsame, ⟨n₁, hread₁, heq⟩ | ⟨r, rfl, hget⟩⟩ := hstamped hread hstamp
      · obtain ⟨before, r, after, st₀, rfl, hrun₀, hget, hpoints⟩ :=
          ih hrun₁ hread₁ (heq ▸ hstamp)
        rw [heq] at hpoints
        refine ⟨before, r, after ++ [op], st₀, by rw [heq]; simp, hrun₀, hget, fun k hk => ?_⟩
        by_cases hin : k ≤ after.length
        · rw [List.take_append_of_le_length hin]
          exact hpoints k hin
        · have hall : (after ++ [op]).take k = after ++ [op] :=
            List.take_of_length_le (by simp; omega)
          obtain ⟨stₖ, hrunₖ, hsameₖ⟩ := hpoints after.length (Nat.le_refl _)
          rw [List.take_length, ← heq, hrun₁] at hrunₖ
          cases hrunₖ
          refine ⟨st, ?_, hsameₖ.trans hsame⟩
          rw [hall, ← hrun, heq]
          simp
      · refine ⟨ops, r, [], st₁, rfl, hrun₁, hget, fun k _ => ⟨st, ?_, hsame⟩⟩
        rw [List.take_nil]
        exact hrun

/-! ## the main result -/

/-- Copying on write is invisible.  A program runs alike on handles of shared nodes and on terms that
share nothing, and at its end (so at every point) the handles show the terms.  No remembered hash is
stale; nodes are equal exactly when their terms are, and then have the same hash; a node that is
known to be evaluated at a generation was marked with it, and did not change from then on. -/
theorem run_shows_terms (hasher : List Token → UInt64) (ops : List Op) :
    Option.Rel (fun st p =>
      st.places.Agree (fun v t => Shows st.store t v) p.places ∧
      (∀ id n t, st.store.read id = some n → n.hash ≠ 0 → Shows st.store t (.node id) →
        n.hash = digest hasher t) ∧
      (∀ a b t u, Shows st.store t (.node a) → Shows st.store u (.node b) →
        (∃ s', st.store.equal hasher a b = some (t == u, s')) ∧
        (∃ s', st.store.hash hasher a = some (digest hasher t, s')) ∧
        ((t == u) = true → digest hasher t = digest hasher u)) ∧
      ∀ id generation, 0 < generation → st.store.isEvaluated id generation = true →
        ∃ before r after st₀, ops = before ++ .mark r generation :: after ∧
          State.run hasher {} before = some st₀ ∧ st₀.places.get? r = some (.node id) ∧
          ∀ k ≤ after.length, ∃ stₖ,
            State.run hasher {} (before ++ .mark r generation :: after.take k) = some stₖ ∧
              Unchanged st₀.store stₖ.store id)
      (State.run hasher {} ops) (Sheet.run {} ops) := by
  have hrel := (State.shows_empty hasher).run ops
  cases hrun : State.run hasher {} ops with
  | none =>
      rw [hrun] at hrel
      cases hp : Sheet.run {} ops with
      | none => exact .none
      | some p =>
          rw [hp] at hrel
          cases hrel
  | some st =>
      rw [hrun] at hrel
      obtain ⟨p, hp, h⟩ := exists_of_rel hrel
      rw [hp]
      refine .some ⟨h.places, fun id n t hread hne hshows => h.hashed hread hne hshows,
        fun a b t u ht hu => ⟨?_, ?_, digest_eq_of_equal hasher⟩,
        fun id generation hpos hstamp => ?_⟩
      · obtain ⟨s', hequal, -⟩ := exists_equal h.counted h.hashed ht hu
        exact ⟨s', hequal⟩
      · obtain ⟨s', hhash, -⟩ := exists_hash h.counted h.hashed ht
        exact ⟨s', hhash⟩
      · rw [Store.isEvaluated] at hstamp
        cases hread : st.store.read id with
        | none =>
            rw [hread] at hstamp
            cases hstamp
        | some n =>
            rw [hread] at hstamp
            obtain rfl : n.evaluated = generation := eq_of_beq hstamp
            exact State.exists_mark hrun hread (Nat.pos_iff_ne_zero.mp hpos)

/-- The list `{1}`, cloned, and its clone changed to `{2}`: the first handle still shows `{1}`, and
the nodes are not equal although all calls have the same hash. -/
theorem run_shows_terms_of_clone :
    ∃ st v w, State.run (fun _ => 0) {} [.call (.atom (.symbol .list) (by decide))
        [.atom (.int 1) (by decide)], .clone 0, .set 1 1 (.atom (.int 2) (by decide))] = some st ∧
      st.places.get? 0 = some v ∧ Shows st.store (.list [.int 1]) v ∧
      st.places.get? 2 = some w ∧ Shows st.store (.list [.int 2]) w ∧
      ∃ a b s', v = .node a ∧ w = .node b ∧ st.store.equal (fun _ => 0) a b = some (false, s') := by
  have hrel := run_shows_terms (fun _ => 0) [.call (.atom (.symbol .list) (by decide))
    [.atom (.int 1) (by decide)], .clone 0, .set 1 1 (.atom (.int 2) (by decide))]
  generalize State.run (fun _ => 0) {} _ = result at hrel ⊢
  cases hrel with
  | some h =>
      rename_i st
      obtain ⟨hplaces, -, hequal, -⟩ := h
      obtain ⟨v, hv, hone⟩ := hplaces.rel_of_get?_right (r := 0) rfl
      obtain ⟨w, hw, htwo⟩ := hplaces.rel_of_get?_right (r := 2) rfl
      refine ⟨st, v, w, rfl, hv, hone, hw, htwo, ?_⟩
      cases v with
      | atom t isAtom => cases shows_atom_iff.mp hone; exact absurd rfl isAtom
      | node a =>
          cases w with
          | atom t isAtom => cases shows_atom_iff.mp htwo; exact absurd rfl isAtom
          | node b =>
              obtain ⟨⟨s', hdiffer⟩, -⟩ := hequal a b _ _ hone htwo
              exact ⟨a, b, s', rfl, rfl, hdiffer⟩

end Termwise.Shared
