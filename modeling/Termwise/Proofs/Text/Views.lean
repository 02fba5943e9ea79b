import Termwise.Proofs.Memory.Counted
import Termwise.Proofs.Memory.Places
import Termwise.Text.Buffer

/-!
# Termwise.Proofs.Text.Views

Copying on write is invisible.  The same program runs on views of shared buffers,
on windows and on plain lists of units:

```text
views       #0 0 5   #0 1 3   ...     windows of shared buffers
windows     hello    ell      ...     values
lists       hello    ell      ...     what is seen
```

One lemma for each operation says what the view shows that it gives, and that all
other views show what they did; a program is one induction over its operations.
-/

namespace Termwise.Text

open Memory Memory.Heap

/-! ## buffers -/

namespace Buffer

theorem window?_eq_some {b : Buffer} {start len : Nat} {us : List UInt16} :
    b.window? start len = some us ↔
      start + len ≤ b.units.length ∧ (b.units.drop start).take len = us := by
  unfold window?
  split <;> simp [*]

theorem length_of_window? {b : Buffer} {start len : Nat} {us : List UInt16}
    (h : b.window? start len = some us) : us.length = len := by
  obtain ⟨hle, rfl⟩ := window?_eq_some.mp h
  rw [List.length_take, List.length_drop]
  omega

theorem window?_zero (b : Buffer) : b.window? 0 b.units.length = some b.units :=
  window?_eq_some.mpr ⟨by omega, by simp⟩

@[simp]
theorem units_reserve (b : Buffer) (n : Nat) : (b.reserve n).units = b.units := by
  unfold reserve
  split <;> rfl

theorem exists_cut {b : Buffer} {start len : Nat} {us : List UInt16}
    (h : b.window? start len = some us) : ∃ b', b.cut? start len = some b' ∧ b'.units = us := by
  have hlen := length_of_window? h
  unfold cut?
  split
  · rename_i hzero
    subst hzero
    exact ⟨_, rfl, by simpa using (window?_eq_some.mp h).2⟩
  · refine ⟨_, by rw [moveDown?, h, Option.map_some, Option.map_some], ?_⟩
    simp [← hlen]

end Buffer

/-! ## operations -/

namespace View

variable {s : Store} {w : View} {us : List UInt16} {owners : List Nat}

/-- The fresh buffers: any, since a buffer keeps nothing but its units. -/
abbrev Anyhow (_ : Buffer) : Prop := True

theorem units?_of_keeps {s' : Store} (hkeeps : Keeps Buffer.refs owners s s')
    (hw : w.buffer ∈ owners) : w.units? s' = w.units? s := by
  rw [units?, units?, hkeeps _ (.owned hw)]

theorem units?_of_cell {b : Buffer} {n : Nat} (hcell : s.cell? w.buffer = some ⟨b, n⟩) :
    w.units? s = b.window? w.start w.length := by
  rw [units?, read_eq_some.mpr ⟨n, hcell⟩, Option.bind_some]

theorem length_of_units? (h : w.units? s = some us) : us.length = w.length := by
  obtain ⟨b, -, hwindow⟩ := Option.bind_eq_some_iff.mp h
  exact Buffer.length_of_window? hwindow

/-- Whether an operation gave a view that shows some units, and left alone what other views show. -/
structure Gives (s : Store) (owners : List Nat) (us : List UInt16) (given : View × Store) :
    Prop where
  counted : Counted Buffer.refs given.2 (given.1.buffer :: owners)
  shows : given.1.units? given.2 = some us
  keeps : Keeps Buffer.refs owners s given.2

theorem gives_ofUnits (counted : Counted Buffer.refs s owners) (us : List UInt16) :
    Gives s owners us (ofUnits s us) := by
  obtain ⟨new, s', halloc, hcell, counted', hevolves, -⟩ :=
    Counted.alloc (v := Buffer.ofUnits us 0) counted Anyhow trivial
  rw [ofUnits, halloc]
  refine ⟨counted', ?_, hevolves.keeps⟩
  rw [units?_of_cell hcell]
  exact Buffer.window?_zero _

theorem gives_clone (counted : Counted Buffer.refs s owners) (hw : w.buffer ∈ owners)
    (hshows : w.units? s = some us) :
    ∃ given, w.clone s = some given ∧ Gives s owners us given := by
  obtain ⟨s', hretain, counted', hread, -⟩ := counted.retain (List.mem_append_left _ hw)
  refine ⟨_, by rw [clone, hretain, Option.map_some], counted', ?_, fun a _ => hread a⟩
  rw [units?, hread]
  exact hshows

theorem gives_slice (counted : Counted Buffer.refs s owners) (hw : w.buffer ∈ owners)
    (hshows : w.units? s = some us) (start len : Nat) :
    ∃ given, w.slice s start len = some given ∧
      Gives s owners ((us.drop start).take len) given := by
  obtain ⟨s', hretain, counted', hread, -⟩ := counted.retain (List.mem_append_left _ hw)
  refine ⟨_, by rw [slice, hretain, Option.map_some], counted', ?_, fun a _ => hread a⟩
  obtain ⟨b, hb, hwindow⟩ := Option.bind_eq_some_iff.mp hshows
  rw [units?, hread, hb, Option.bind_some]
  obtain ⟨hinside, rfl⟩ := Buffer.window?_eq_some.mp hwindow
  refine Buffer.window?_eq_some.mpr ⟨by dsimp only; omega, ?_⟩
  dsimp only
  rw [List.drop_take, List.drop_drop, List.take_take]
  by_cases h : start ≤ w.length
  · rw [Nat.min_eq_left h]
  · have hs : w.length - start = 0 := by omega
    simp [hs, Nat.min_eq_right (Nat.le_of_not_le h)]

theorem exists_drop (counted : Counted Buffer.refs s (w.buffer :: owners)) :
    ∃ s', w.drop s = some s' ∧ Counted Buffer.refs s' owners ∧ s'.Within s ∧
      Keeps Buffer.refs owners s s' := by
  obtain ⟨s', hrelease, counted', hwithin, -⟩ := counted.release [w.buffer]
  exact ⟨s', hrelease, counted', hwithin, (counted'.evolves_of_within_of_counted Anyhow
    hwithin (List.subset_append_left ..)).keeps⟩

/-- Whether an operation gave a view that is the only one of its buffer. -/
structure GivesAlone (s : Store) (owners : List Nat) (us : List UInt16) (given : View × Store) :
    Prop extends Gives s owners us given where
  alone : ∃ b, given.2.cell? given.1.buffer = some ⟨b, 1⟩

theorem givesAlone_unshare (counted : Counted Buffer.refs s (w.buffer :: owners))
    (hshows : w.units? s = some us) (extra : Nat) :
    ∃ given, w.unshare s extra = some given ∧ GivesAlone s owners us given := by
  obtain ⟨⟨b, n⟩, hcell⟩ := counted.exists_cell (List.mem_append_left _ (List.mem_cons_self ..))
  have hhandles : s.handles w.buffer = n := by rw [handles, hcell]; rfl
  rw [unshare, hhandles]
  split
  · rename_i hone
    subst hone
    exact ⟨_, rfl, ⟨counted, hshows, fun _ _ => rfl⟩, b, hcell⟩
  · obtain ⟨new, s₁, halloc, hnew₁, counted₁, hevolves₁, -⟩ :=
      Counted.alloc (v := Buffer.ofUnits us extra) counted Anyhow trivial
    obtain ⟨s₂, hdrop, counted₂, hwithin₂, hkeeps₂⟩ :=
      exists_drop (counted₁.perm (List.Perm.swap ..))
    have hnew₂ : s₂.cell? new = some ⟨Buffer.ofUnits us extra, 1⟩ :=
      counted₁.alone_of_within hnew₁ counted₂ hwithin₂ (List.subset_cons_self ..)
    refine ⟨(⟨new, 0, w.length⟩, s₂), ?_, ⟨counted₂, ?_, ?_⟩, _, hnew₂⟩
    · simp only [hshows, halloc, hdrop, Option.bind_eq_bind, Option.bind_some]
    · rw [units?_of_cell hnew₂, ← length_of_units? hshows]
      exact Buffer.window?_zero _
    · exact (hevolves₁.keeps.mono (List.subset_cons_self ..)).trans
        (hkeeps₂.mono (List.subset_cons_self ..))

/-- Other units in a buffer, through its only view. -/
theorem exists_write {b : Buffer} (counted : Counted Buffer.refs s (w.buffer :: owners))
    (hcell : s.cell? w.buffer = some ⟨b, 1⟩) (b' : Buffer) :
    ∃ s', s.write w.buffer b' = some s' ∧ s'.cell? w.buffer = some ⟨b', 1⟩ ∧
      Counted Buffer.refs s' (w.buffer :: owners) ∧ Keeps Buffer.refs owners s s' := by
  obtain ⟨s', hwrite, hcell', counted', hevolves, -⟩ :=
    Counted.write Anyhow [] [] counted hcell (.refl b'.refs) trivial
  exact ⟨s', hwrite, hcell', counted', hevolves.keeps⟩

/-- Whether an operation gave a view of the whole of a buffer that it is the only one of. -/
structure GivesWhole (s : Store) (owners : List Nat) (us : List UInt16) (given : View × Store) :
    Prop where
  counted : Counted Buffer.refs given.2 (given.1.buffer :: owners)
  keeps : Keeps Buffer.refs owners s given.2
  start : given.1.start = 0
  length : given.1.length = us.length
  whole : ∃ b, given.2.cell? given.1.buffer = some ⟨b, 1⟩ ∧ b.units = us

theorem givesWhole_own (counted : Counted Buffer.refs s (w.buffer :: owners))
    (hshows : w.units? s = some us) (extra : Nat) :
    ∃ given, w.own s extra = some given ∧ GivesWhole s owners us given := by
  obtain ⟨⟨w₁, s₁⟩, hunshare, hgives⟩ := givesAlone_unshare counted hshows extra
  obtain ⟨b, hcell⟩ := hgives.alone
  have hwindow := hgives.shows
  rw [units?_of_cell hcell] at hwindow
  obtain ⟨b', hcut, hunits⟩ := Buffer.exists_cut hwindow
  obtain ⟨s₂, hwrite, hcell₂, counted₂, hkeeps₂⟩ :=
    exists_write hgives.counted hcell (b'.reserve (w₁.length + extra))
  have hunique := makeUnique_of_alone Buffer.refs Buffer.copy hcell
  refine ⟨(⟨w₁.buffer, 0, w₁.length⟩, s₂), ?_, counted₂, hgives.keeps.trans hkeeps₂, rfl,
    (Buffer.length_of_window? hwindow).symm, _, hcell₂, by rw [Buffer.units_reserve, hunits]⟩
  simp only [own, hunshare, hunique, read_eq_some.mpr ⟨1, hcell⟩, hcut, hwrite,
    Option.bind_eq_bind, Option.bind_some]

theorem GivesWhole.gives {given : View × Store} (h : GivesWhole s owners us given) :
    Gives s owners us given where
  counted := h.counted
  shows := by
    obtain ⟨b, hcell, rfl⟩ := h.whole
    rw [units?_of_cell hcell, h.start, h.length]
    exact Buffer.window?_zero b
  keeps := h.keeps

theorem gives_set (counted : Counted Buffer.refs s (w.buffer :: owners))
    (hshows : w.units? s = some us) (i : Nat) (u : UInt16) :
    ∃ given, w.set s i u = some given ∧ Gives s owners (us.set i u) given := by
  have hlen := length_of_units? hshows
  unfold set
  split
  · rw [List.set_eq_of_length_le (by omega)]
    exact ⟨_, rfl, counted, hshows, fun _ _ => rfl⟩
  · obtain ⟨⟨w₁, s₁⟩, hown, hwhole⟩ := givesWhole_own counted hshows 0
    obtain ⟨b, hcell, hunits⟩ := hwhole.whole
    have hset : b.set? i u = some { b with units := us.set i u } := by
      rw [Buffer.set?, hunits, if_pos (by omega)]
    obtain ⟨s₂, hwrite, hcell₂, counted₂, hkeeps₂⟩ :=
      exists_write hwhole.counted hcell { b with units := us.set i u }
    refine ⟨(w₁, s₂), ?_, GivesWhole.gives ⟨counted₂, hwhole.keeps.trans hkeeps₂, hwhole.start,
      hwhole.length.trans List.length_set.symm, _, hcell₂, rfl⟩⟩
    simp only [hown, read_eq_some.mpr ⟨1, hcell⟩, hset, hwrite, Option.bind_eq_bind,
      Option.bind_some]

theorem gives_concat {other : View} {vs : List UInt16}
    (counted : Counted Buffer.refs s (w.buffer :: owners)) (hshows : w.units? s = some us)
    (hother : other.buffer ∈ owners) (hshown : other.units? s = some vs) :
    ∃ given, w.concat s other = some given ∧ Gives s owners (us ++ vs) given := by
  have hlen := length_of_units? hshows
  have hmore := length_of_units? hshown
  unfold concat
  split
  · rename_i hempty
    obtain rfl : vs = [] := List.length_eq_zero_iff.mp (by omega)
    rw [List.append_nil]
    exact ⟨_, rfl, counted, hshows, fun _ _ => rfl⟩
  split
  · rename_i hempty
    obtain rfl : us = [] := List.length_eq_zero_iff.mp (by omega)
    obtain ⟨⟨w₁, s₁⟩, hclone, hgives⟩ :=
      gives_clone counted (List.mem_cons_of_mem _ hother) hshown
    obtain ⟨s₂, hdrop, counted₂, hwithin₂, hkeeps₂⟩ :=
      exists_drop (w := w) (hgives.counted.perm (List.Perm.swap ..))
    refine ⟨(w₁, s₂), ?_, counted₂, ?_, ?_⟩
    · simp only [hclone, hdrop, Option.bind_eq_bind, Option.bind_some]
    · rw [units?_of_keeps hkeeps₂ (List.mem_cons_self ..)]
      exact hgives.shows
    · exact (hgives.keeps.mono (List.subset_cons_self ..)).trans
        (hkeeps₂.mono (List.subset_cons_self ..))
  · obtain ⟨⟨w₁, s₁⟩, hown, hwhole⟩ := givesWhole_own counted hshows other.length
    obtain ⟨b, hcell, hunits⟩ := hwhole.whole
    -- the argument is read before or after the buffer was made ready: it shows the same
    have hlate : other.units? s₁ = some vs := (units?_of_keeps hwhole.keeps hother).trans hshown
    obtain ⟨s₂, hwrite, hcell₂, counted₂, hkeeps₂⟩ :=
      exists_write hwhole.counted hcell (b.extend vs)
    refine ⟨({ w₁ with length := w₁.length + other.length }, s₂), ?_,
      GivesWhole.gives ⟨counted₂, hwhole.keeps.trans hkeeps₂, hwhole.start, ?_, _, hcell₂, ?_⟩⟩
    · split
      · simp only [hshown, hown, read_eq_some.mpr ⟨1, hcell⟩, hwrite, Option.bind_eq_bind,
          Option.bind_some, Option.map_some, Option.some_or]
      · simp only [hlate, hown, read_eq_some.mpr ⟨1, hcell⟩, hwrite, Option.bind_eq_bind,
          Option.bind_some, Option.none_or]
    · rw [List.length_append, ← hwhole.length, hmore]
    · rw [Buffer.extend, hunits]

/-! ## programs -/

/-- The operations on texts of some kind. -/
structure Texts (τ : Type) where
  ofUnits : List UInt16 → τ
  slice : τ → Nat → Nat → τ
  set : τ → Nat → UInt16 → τ
  concat : τ → τ → τ

namespace Texts

/-- Plain lists of units. -/
def lists : Texts (List UInt16) where
  ofUnits us := us
  slice us start len := (us.drop start).take len
  set := List.set
  concat := List.append

/-- The strings of terms. -/
def windows : Texts Window where
  ofUnits := Window.ofUnits
  slice := Window.slice
  set := Window.set
  concat := Window.append

variable {τ : Type} (T : Texts τ)

/-- One operation on texts that share nothing. -/
def step (p : Places τ) : Op → Option (Places τ)
  | .ofUnits us => some (p.add (T.ofUnits us))
  | .zeros n => some (p.add (T.ofUnits (List.replicate n 0)))
  | .clone r => do
    let x ← p.get? r
    return p.add x
  | .slice r start len => do
    let x ← p.get? r
    return p.add (T.slice x start len)
  | .set r i u => do
    let (x, p) ← p.take? r
    return p.add (T.set x i u)
  | .concat r other => do
    let (x, p) ← p.take? r
    let y ← p.get? other
    return p.add (T.concat x y)
  | .drop r => do
    let (_, p) ← p.take? r
    return p

/-- The operations of a program, one after the other. -/
def run (p : Places τ) (ops : List Op) : Option (Places τ) := ops.foldlM T.step p

end Texts

/-- The buffer that a view keeps. -/
def keptBuffer (w : View) : List Nat := [w.buffer]

/-- Whether the views on a desk show some texts, and nothing else keeps its buffers. -/
structure Desk.Shows (d : Desk) (p : Places (List UInt16)) : Prop where
  counted : Counted Buffer.refs d.store (d.views.held keptBuffer)
  views : d.views.Agree (fun w us => w.units? d.store = some us) p

namespace Desk.Shows

theorem empty : Shows {} {} := ⟨counted_empty _, Places.agree_empty⟩

theorem add {s : Store} {views : Places View} {p : Places (List UInt16)} {us : List UInt16}
    {given : View × Store} (hviews : views.Agree (fun w us => w.units? s = some us) p)
    (hgives : Gives s (views.held keptBuffer) us given) :
    Shows (Desk.add views given) (p.add us) where
  counted := by
    rw [Desk.add, Places.held_add]
    exact hgives.counted.perm (List.perm_append_singleton given.1.buffer _).symm
  views := (hviews.imp fun w us hw hshows => (units?_of_keeps hgives.keeps
    (Places.mem_held hw (List.mem_cons_self ..))).trans hshows).add hgives.shows

/-- One operation on views does what it does on lists. -/
theorem step {d : Desk} {p : Places (List UInt16)} (h : d.Shows p) (op : Op) :
    Option.Rel Shows (d.step op) (Texts.lists.step p op) := by
  cases op with
  | ofUnits us => exact .some (add h.views (gives_ofUnits h.counted us))
  | zeros n => exact .some (add h.views (gives_ofUnits h.counted _))
  | clone r =>
      simp only [Desk.step, Texts.step]
      rcases h.views.get? r with ⟨hp, hq⟩ | ⟨w, us, hp, hq, hshows⟩ <;> rw [hp, hq]
      · exact .none
      · obtain ⟨given, hclone, hgives⟩ := gives_clone h.counted
          (Places.mem_held (Places.mem_entries_of_get? hp) (List.mem_cons_self ..)) hshows
        simp only [Option.bind_eq_bind, Option.bind_some, hclone]
        exact .some (add h.views hgives)
  | slice r start len =>
      simp only [Desk.step, Texts.step]
      rcases h.views.get? r with ⟨hp, hq⟩ | ⟨w, us, hp, hq, hshows⟩ <;> rw [hp, hq]
      · exact .none
      · obtain ⟨given, hslice, hgives⟩ := gives_slice h.counted
          (Places.mem_held (Places.mem_entries_of_get? hp) (List.mem_cons_self ..)) hshows start len
        simp only [Option.bind_eq_bind, Option.bind_some, hslice]
        exact .some (add h.views hgives)
  | set r i u =>
      simp only [Desk.step, Texts.step]
      rcases h.views.take? r with ⟨hp, hq⟩ | ⟨w, views, us, p', hp, hq, hshows, hviews⟩ <;>
        rw [hp, hq]
      · exact .none
      · obtain ⟨given, hset, hgives⟩ := gives_set (h.counted.perm (Places.held_take hp)) hshows i u
        simp only [Option.bind_eq_bind, Option.bind_some, hset]
        exact .some (add hviews hgives)
  | concat r other =>
      simp only [Desk.step, Texts.step]
      rcases h.views.take? r with ⟨hp, hq⟩ | ⟨w, views, us, p', hp, hq, hshows, hviews⟩ <;>
        rw [hp, hq]
      · exact .none
      · simp only [Option.bind_eq_bind, Option.bind_some]
        rcases hviews.get? other with ⟨hp', hq'⟩ | ⟨w', vs, hp', hq', hshown⟩ <;> rw [hp', hq']
        · exact .none
        · obtain ⟨given, hconcat, hgives⟩ := gives_concat (h.counted.perm (Places.held_take hp))
            hshows (Places.mem_held (Places.mem_entries_of_get? hp') (List.mem_cons_self ..)) hshown
          simp only [Option.bind_some, hconcat]
          exact .some (add hviews hgives)
  | drop r =>
      simp only [Desk.step, Texts.step]
      rcases h.views.take? r with ⟨hp, hq⟩ | ⟨w, views, us, p', hp, hq, -, hviews⟩ <;> rw [hp, hq]
      · exact .none
      · obtain ⟨s', hdrop, counted', -, hkeeps⟩ :=
          exists_drop (h.counted.perm (Places.held_take hp))
        simp only [Option.bind_eq_bind, Option.bind_some, hdrop]
        exact .some ⟨counted', hviews.imp fun w us hw hshows => (units?_of_keeps hkeeps
          (Places.mem_held hw (List.mem_cons_self ..))).trans hshows⟩

theorem run (ops : List Op) : Option.Rel Shows (Desk.run {} ops) (Texts.lists.run {} ops) :=
  rel_foldlM (fun _ _ op h => h.step op) ops empty

end Desk.Shows

/-! ## texts that an operation does not use up -/

theorem Texts.get?_step {τ : Type} (T : Texts τ) {p p' : Places τ} {op : Op} {r : Nat} {x : τ}
    (hstep : T.step p op = some p') (huses : op.uses? ≠ some r) (hget : p.get? r = some x) :
    p'.get? r = some x := by
  cases op with
  | ofUnits us | zeros n =>
      cases hstep
      exact Places.get?_add hget _
  | clone r' | slice r' start len =>
      obtain ⟨y, -, hadd⟩ := Option.bind_eq_some_iff.mp hstep
      cases hadd
      exact Places.get?_add hget _
  | set r' i u =>
      obtain ⟨⟨y, rest⟩, htake, hadd⟩ := Option.bind_eq_some_iff.mp hstep
      cases hadd
      exact Places.get?_add (Places.get?_of_take? htake (huses <| congrArg some ·) hget) _
  | concat r' other =>
      obtain ⟨⟨y, rest⟩, htake, hother⟩ := Option.bind_eq_some_iff.mp hstep
      obtain ⟨z, -, hadd⟩ := Option.bind_eq_some_iff.mp hother
      cases hadd
      exact Places.get?_add (Places.get?_of_take? htake (huses <| congrArg some ·) hget) _
  | drop r' =>
      obtain ⟨⟨y, rest⟩, htake, hrest⟩ := Option.bind_eq_some_iff.mp hstep
      cases hrest
      exact Places.get?_of_take? htake (huses <| congrArg some ·) hget

theorem Desk.get?_step {d d' : Desk} {op : Op} {r : Nat} {w : View} (hstep : d.step op = some d')
    (huses : op.uses? ≠ some r) (hget : d.views.get? r = some w) : d'.views.get? r = some w := by
  cases op with
  | ofUnits us | zeros n =>
      cases hstep
      exact Places.get?_add hget _
  | clone r' | slice r' start len =>
      obtain ⟨y, -, hgive⟩ := Option.bind_eq_some_iff.mp hstep
      obtain ⟨given, -, hadd⟩ := Option.bind_eq_some_iff.mp hgive
      cases hadd
      exact Places.get?_add hget _
  | set r' i u =>
      obtain ⟨⟨y, rest⟩, htake, hgive⟩ := Option.bind_eq_some_iff.mp hstep
      obtain ⟨given, -, hadd⟩ := Option.bind_eq_some_iff.mp hgive
      cases hadd
      exact Places.get?_add (Places.get?_of_take? htake (huses <| congrArg some ·) hget) _
  | concat r' other =>
      obtain ⟨⟨y, rest⟩, htake, hother⟩ := Option.bind_eq_some_iff.mp hstep
      obtain ⟨z, -, hgive⟩ := Option.bind_eq_some_iff.mp hother
      obtain ⟨given, -, hadd⟩ := Option.bind_eq_some_iff.mp hgive
      cases hadd
      exact Places.get?_add (Places.get?_of_take? htake (huses <| congrArg some ·) hget) _
  | drop r' =>
      obtain ⟨⟨y, rest⟩, htake, hdrop⟩ := Option.bind_eq_some_iff.mp hstep
      obtain ⟨s, -, hrest⟩ := Option.bind_eq_some_iff.mp hdrop
      cases hrest
      exact Places.get?_of_take? htake (huses <| congrArg some ·) hget

/-- A program that begins with another one comes to the point where that one ends. -/
theorem Desk.run_append (d : Desk) (ops more : List Op) :
    d.run (ops ++ more) = (d.run ops).bind (·.run more) := List.foldlM_append

/-! ## windows and lists -/

/-- One operation on the strings of terms does what it does on lists. -/
theorem rel_step_windows {p : Places Window} {q : Places (List UInt16)}
    (h : p.Agree (fun w us => w.units = us) q) (op : Op) :
    Option.Rel (Places.Agree fun w us => w.units = us) (Texts.windows.step p op)
      (Texts.lists.step q op) := by
  cases op with
  | ofUnits us | zeros n => exact .some (h.add (Window.units_ofUnits _))
  | clone r =>
      simp only [Texts.step]
      rcases h.get? r with ⟨hp, hq⟩ | ⟨w, us, hp, hq, hunits⟩ <;> rw [hp, hq]
      · exact .none
      · exact .some (h.add hunits)
  | slice r start len =>
      simp only [Texts.step]
      rcases h.get? r with ⟨hp, hq⟩ | ⟨w, us, hp, hq, hunits⟩ <;> rw [hp, hq]
      · exact .none
      · exact .some (h.add (hunits ▸ Window.units_slice w start len))
  | set r i u =>
      simp only [Texts.step]
      rcases h.take? r with ⟨hp, hq⟩ | ⟨w, p', us, q', hp, hq, hunits, hrest⟩ <;> rw [hp, hq]
      · exact .none
      · exact .some (hrest.add (hunits ▸ Window.units_set w i u))
  | concat r other =>
      simp only [Texts.step]
      rcases h.take? r with ⟨hp, hq⟩ | ⟨w, p', us, q', hp, hq, hunits, hrest⟩ <;> rw [hp, hq]
      · exact .none
      · simp only [Option.bind_eq_bind, Option.bind_some]
        rcases hrest.get? other with ⟨hp', hq'⟩ | ⟨w', vs, hp', hq', hunits'⟩ <;> rw [hp', hq']
        · exact .none
        · exact .some (hrest.add (hunits ▸ hunits' ▸ Window.units_append w w'))
  | drop r =>
      simp only [Texts.step]
      rcases h.take? r with ⟨hp, hq⟩ | ⟨w, p', us, q', hp, hq, hunits, hrest⟩ <;> rw [hp, hq]
      · exact .none
      · exact .some hrest

/-! ## the main result -/

/-- Copying on write is invisible.  A program that takes the views it names runs on shared buffers,
on the strings of terms and on plain lists alike, and shows the same texts there; every view lies
inside its buffer; and an operation changes neither the views it does not use up nor what they
show. -/
theorem run_shows (ops : List Op) :
    (Desk.run {} ops).map Desk.shown =
        (Texts.lists.run {} ops).map (fun p => p.entries.map (Option.map some)) ∧
      (Texts.windows.run {} ops).map (fun p => p.entries.map (Option.map Window.units)) =
        (Texts.lists.run {} ops).map Places.entries ∧
      ∀ d, Desk.run {} ops = some d →
        (∀ w, some w ∈ d.views.entries →
          ∃ b, d.store.read w.buffer = some b ∧ w.start + w.length ≤ b.units.length) ∧
        ∀ op d', d.step op = some d' → ∀ r w, d.views.get? r = some w → op.uses? ≠ some r →
          d'.views.get? r = some w ∧ w.units? d'.store = w.units? d.store := by
  have hviews := Desk.Shows.run ops
  have hwindows : Option.Rel (Places.Agree fun (w : Window) us => w.units = us)
      (Texts.windows.run {} ops) (Texts.lists.run {} ops) :=
    rel_foldlM (fun _ _ op h => rel_step_windows h op) ops Places.agree_empty
  refine ⟨?_, ?_, fun d hrun => ?_⟩
  · exact map_eq_of_rel hviews fun d p h => h.views.map_eq fun w us hshows => hshows
  · refine map_eq_of_rel hwindows fun p q h => ?_
    rw [h.map_eq (g := id) fun w us hunits => hunits]
    simp
  · rw [hrun] at hviews
    cases hp : Texts.lists.run {} ops <;> rw [hp] at hviews <;> cases hviews
    rename_i p hd
    refine ⟨fun w hw => ?_, fun op d' hstep r w hget huses => ?_⟩
    · obtain ⟨r, hget⟩ := Places.mem_entries_iff.mp hw
      obtain ⟨us, -, hshows⟩ := hd.views.rel_of_get? hget
      obtain ⟨b, hread, hwindow⟩ := Option.bind_eq_some_iff.mp hshows
      exact ⟨b, hread, (Buffer.window?_eq_some.mp hwindow).1⟩
    · have hnext := hd.step op
      rw [hstep] at hnext
      cases hp' : Texts.lists.step p op <;> rw [hp'] at hnext <;> cases hnext
      rename_i p' hd'
      obtain ⟨us, hlist, hshows⟩ := hd.views.rel_of_get? hget
      have hget' := Desk.get?_step hstep huses hget
      obtain ⟨us', hlist', hshows'⟩ := hd'.views.rel_of_get? hget'
      rw [Texts.get?_step _ hp' huses hlist] at hlist'
      cases hlist'
      exact ⟨hget', hshows'.trans hshows.symm⟩

/-- A string joined with a clone of itself, and then changed: the clone shows what it did. -/
theorem run_shows_of_clone :
    ∃ d d' w, Desk.run {} [.ofUnits [104, 105], .clone 0, .concat 0 1] = some d ∧
      d.shown = [none, some (some [104, 105]), some (some [104, 105, 104, 105])] ∧
      d.step (.set 2 0 72) = some d' ∧ d'.views.get? 1 = some w ∧
      w.units? d'.store = some [104, 105] := by
  obtain ⟨hshown, -, hviews⟩ := run_shows [.ofUnits [104, 105], .clone 0, .concat 0 1]
  obtain ⟨d, hrun, hd⟩ := Option.map_eq_some_iff.mp hshown
  have hthen := (run_shows ([.ofUnits [104, 105], .clone 0, .concat 0 1] ++ [.set 2 0 72])).1
  obtain ⟨d', hrun', -⟩ := Option.map_eq_some_iff.mp hthen
  rw [Desk.run_append, hrun, Option.bind_some] at hrun'
  have hstep : d.step (.set 2 0 72) = some d' := by simpa [Desk.run] using hrun'
  have hone : (d.views.get? 1).map (View.units? d.store) = some (some [104, 105]) := by
    have hentry : (d.views.entries.map (Option.map (View.units? d.store)))[1]? =
        some (some (some [104, 105])) := congrArg (·[1]?) hd
    rw [List.getElem?_map] at hentry
    obtain ⟨x, hx, hw⟩ := Option.map_eq_some_iff.mp hentry
    rw [Places.get?, hx]
    exact hw
  obtain ⟨w, hget, hw⟩ := Option.map_eq_some_iff.mp hone
  obtain ⟨hget', hsame⟩ := (hviews d hrun).2 _ d' hstep 1 w hget (by decide)
  exact ⟨d, d', w, hrun, hd, hstep, hget', hsame.trans hw⟩

end View

end Termwise.Text
