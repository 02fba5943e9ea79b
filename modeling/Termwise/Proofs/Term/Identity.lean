import Termwise.Eval.Step
import Termwise.Proofs.Eval.Search
import Termwise.Proofs.Term.Ordinary

/-!
# Termwise.Proofs.Term.Identity

What identities stand for.  A *ledger* lists, at the position of each identity, the term
that was named so: a call, a host object, or a string for a buffer.  A term is *booked*
(`Term.Booked`) if each identity in it stands for what the ledger says.

* `Booked.strip_eq_of_same` — two booked terms that are the very same are structurally equal;
* `exists_booked_share` — naming the nodes of a booked term goes on with the ledger;
* `strip_rebuild` — a call that is kept is structurally equal to the one made from its parts.
-/

namespace Termwise

namespace Term

/-! ## booked terms -/

/-- The identity of a term, 0 while it has none. -/
def identity : Term → Nat
  | .node id _ _ => id
  | .text s => s.buffer
  | .host o => o.id
  | _ => 0

/-- What the identity of a term stands for: the whole buffer for a string, the structure of any
other term. -/
def standsFor : Term → Term
  | .text s => .text (.ofUnits s.contents)
  | t => t.strip

/-- Every identity in the term stands for what the ledger says. -/
def Booked (ledger : List Term) (t : Term) : Prop :=
  t.Every fun s => s.identity = 0 ∨ ledger[s.identity]? = some s.standsFor

variable {ledger ledger' : List Term} {t t' f : Term} {xs : List Term} {i : Nat}

theorem getElem?_of_extends {α : Type} {xs ys : List α} (h : xs <+: ys) {i : Nat} {x : α}
    (hx : xs[i]? = some x) : ys[i]? = some x := by
  obtain ⟨rest, rfl⟩ := h
  rw [List.getElem?_append_left (List.getElem?_eq_some_iff.mp hx).1, hx]

theorem Booked.mono (h : t.Booked ledger) (hle : ledger <+: ledger') : t.Booked ledger' :=
  h.imp fun _ hs => hs.imp_right (getElem?_of_extends hle)

theorem booked_node : (Term.node i f xs).Booked ledger ↔
    (i = 0 ∨ ledger[i]? = some (Term.node i f xs).strip) ∧ f.Booked ledger ∧
      ∀ x ∈ xs, x.Booked ledger := every_node

theorem booked_call (hf : f.Booked ledger) (hxs : ∀ x ∈ xs, x.Booked ledger) :
    (call f xs).Booked ledger := booked_node.mpr ⟨.inl rfl, hf, hxs⟩

theorem booked_symbol (s : Symbol) : (Term.symbol s).Booked ledger := .inl rfl

/-! ## the very same term -/

/-- Booked terms that are the very same are structurally equal. -/
theorem Booked.strip_eq_of_same (ht : t.Booked ledger) (ht' : t'.Booked ledger)
    (h : t.same t' = true) : t.strip = t'.strip := by
  cases t with
  | node i f xs =>
      cases t' with
      | node j g ys =>
          simp only [same, Bool.and_eq_true, bne_iff_ne, beq_iff_eq] at h
          obtain ⟨hi, rfl⟩ := h
          have hf := (booked_node.mp ht).1.resolve_left hi
          have hg := (booked_node.mp ht').1.resolve_left hi
          exact Option.some.inj (hf.symm.trans hg)
      | _ => simp [same] at h
  | text s =>
      cases t' with
      | text s' =>
          simp only [same, Text.Window.same, Bool.and_eq_true, bne_iff_ne, beq_iff_eq] at h
          obtain ⟨⟨⟨hbuffer, hsame⟩, hstart⟩, hlength⟩ := h
          have hs : ledger[s.buffer]? = some _ := ht.resolve_left hbuffer
          have hs' : ledger[s'.buffer]? = some _ := ht'.resolve_left (by rwa [hsame] at hbuffer)
          rw [hsame] at hs
          have hstands := Option.some.inj (hs.symm.trans hs')
          have hcontents : s.contents = s'.contents := by
            have hwindow := congrArg Text.Window.units (Term.text.inj hstands)
            rwa [Text.Window.units_ofUnits, Text.Window.units_ofUnits] at hwindow
          have hunits : s.units = s'.units := by
            rw [Text.Window.units, Text.Window.units, hcontents, hstart, hlength]
          rw [strip, strip, hunits]
      | _ => simp [same] at h
  | host o =>
      cases t' with
      | host o' =>
          simp only [same, Bool.and_eq_true, bne_iff_ne, beq_iff_eq] at h
          obtain ⟨hid, hsame⟩ := h
          have ho : ledger[o.id]? = some _ := ht.resolve_left hid
          have ho' : ledger[o'.id]? = some _ := ht'.resolve_left (by rwa [hsame] at hid)
          rw [hsame] at ho
          exact Option.some.inj (ho.symm.trans ho')
      | _ => simp [same] at h
  | _ => cases t' <;> simp_all [same]

theorem map_strip_eq_of_same {ys : List Term} (hxs : ∀ x ∈ xs, x.Booked ledger)
    (hys : ∀ y ∈ ys, y.Booked ledger) (hlength : xs.length = ys.length)
    (h : (xs.zip ys).all (fun a => a.1.same a.2) = true) : xs.map strip = ys.map strip := by
  induction xs generalizing ys with
  | nil => rw [List.eq_nil_of_length_eq_zero hlength.symm]
  | cons x xs ih =>
      cases ys with
      | nil => cases hlength
      | cons y ys =>
          obtain ⟨hx, hxs⟩ := List.forall_mem_cons.mp hxs
          obtain ⟨hy, hys⟩ := List.forall_mem_cons.mp hys
          rw [List.zip_cons_cons, List.all_cons, Bool.and_eq_true] at h
          rw [List.map_cons, List.map_cons, hx.strip_eq_of_same hy h.1,
            ih hxs hys (Nat.succ.inj hlength) h.2]

/-! ## naming nodes -/

mutual

/-- Naming the nodes of a booked term goes on with the ledger. -/
theorem exists_booked_share : ∀ {ledger : List Term} {t : Term}, t.Booked ledger →
    ∃ ledger', ledger <+: ledger' ∧ ledger'.length = (t.share ledger.length).2 ∧
      (t.share ledger.length).1.Booked ledger'
  | ledger, .node 0 f xs, h => by
      obtain ⟨-, hf, hxs⟩ := booked_node.mp h
      have hentry : ledger <+: ledger ++ [(Term.node 0 f xs).strip] := List.prefix_append _ _
      obtain ⟨ledger₁, hle₁, hlength₁, hhead⟩ := exists_booked_share (hf.mono hentry)
      rw [List.length_append, List.length_singleton] at hlength₁ hhead
      obtain ⟨ledger₂, hle₂, hlength₂, hargs⟩ :=
        exists_booked_shareAll fun x hx => (hxs x hx).mono (hentry.trans hle₁)
      rw [hlength₁] at hlength₂ hargs
      refine ⟨ledger₂, (hentry.trans hle₁).trans hle₂, hlength₂, ?_⟩
      refine booked_node.mpr ⟨.inr ?_, hhead.mono hle₂, hargs⟩
      have hstrip := strip_share (.node 0 f xs) ledger.length
      simp only [share] at hstrip
      rw [hstrip]
      exact getElem?_of_extends (hle₁.trans hle₂) (List.getElem?_concat_length)
  | ledger, .node (i + 1) f xs, h => ⟨ledger, List.prefix_refl _, rfl, h⟩
  | ledger, .text s, h => by
      rw [share, Text.Window.share]
      split
      · refine ⟨ledger ++ [(Term.text s).standsFor], List.prefix_append _ _, by simp, .inr ?_⟩
        exact List.getElem?_concat_length
      · exact ⟨ledger, List.prefix_refl _, rfl, h⟩
  | ledger, .host o, h => by
      rw [share, HostObject.share]
      split
      · refine ⟨ledger ++ [(Term.host o).standsFor], List.prefix_append _ _, by simp, .inr ?_⟩
        exact List.getElem?_concat_length
      · exact ⟨ledger, List.prefix_refl _, rfl, h⟩
  | ledger, .magic _, h | ledger, .int _, h | ledger, .float _, h | ledger, .symbol _, h =>
      ⟨ledger, List.prefix_refl _, rfl, h⟩

theorem exists_booked_shareAll : ∀ {ledger : List Term} {ts : List Term},
    (∀ t ∈ ts, t.Booked ledger) →
    ∃ ledger', ledger <+: ledger' ∧ ledger'.length = (shareAll ledger.length ts).2 ∧
      ∀ t ∈ (shareAll ledger.length ts).1, t.Booked ledger'
  | ledger, [], _ => ⟨ledger, List.prefix_refl _, rfl, nofun⟩
  | ledger, t :: ts, h => by
      obtain ⟨ht, hts⟩ := List.forall_mem_cons.mp h
      obtain ⟨ledger₁, hle₁, hlength₁, hshared⟩ := exists_booked_share ht
      obtain ⟨ledger₂, hle₂, hlength₂, hrest⟩ :=
        exists_booked_shareAll fun x hx => (hts x hx).mono hle₁
      rw [hlength₁] at hlength₂ hrest
      exact ⟨ledger₂, hle₁.trans hle₂, hlength₂,
        List.forall_mem_cons.mpr ⟨hshared.mono hle₂, hrest⟩⟩

end

/-! ## calls kept -/

/-- A call that is kept because no part has changed is structurally equal to the one made from the
parts. -/
theorem strip_rebuild {g : Term} {ys : List Term} (h : (Term.node i f xs).Booked ledger)
    (hg : g.Booked ledger) (hys : ∀ y ∈ ys, y.Booked ledger) (hlength : ys.length = xs.length) :
    (Evaluator.rebuild (.node i f xs) g ys).strip = (call g ys).strip := by
  obtain ⟨-, hf, hxs⟩ := booked_node.mp h
  unfold Evaluator.rebuild
  split
  · rename_i hsame
    rw [Bool.and_eq_true] at hsame
    have hhead := hg.strip_eq_of_same hf hsame.1
    have hargs := map_strip_eq_of_same hys hxs hlength hsame.2
    rw [call, strip, strip, stripAll_eq_map, stripAll_eq_map, hhead, hargs]
  · rfl

theorem Booked.rebuild {g : Term} {ys : List Term} (h : (Term.node i f xs).Booked ledger)
    (hg : g.Booked ledger) (hys : ∀ y ∈ ys, y.Booked ledger) :
    (Evaluator.rebuild (.node i f xs) g ys).Booked ledger := by
  unfold Evaluator.rebuild
  split
  · exact h
  · exact booked_call hg hys

end Term

end Termwise
