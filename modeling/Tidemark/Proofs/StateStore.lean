import Mathlib.Data.Set.Finite.Basic
import Mathlib.Logic.Function.Basic
import Tidemark.Proofs.Command
import Tidemark.Proofs.Encoding.Prefixes

/-! What a store means when nothing is refused. Whatever calls came before, it is a finite map from
cells to encoded values together with a current key. A snapshot is the canonical form of the map:
equal maps have the same snapshot, and a snapshot is read back whole or not at all. What is refused
is settled by the plan alone, of which each call uses up one entry. -/

namespace Tidemark

namespace StateStore

variable {β : Type} [Encoding β] {s : StateStore} {key scope : Bytes}

/-- The store with another current key. -/
def facing (s : StateStore) (key : Bytes) : StateStore := { s with current := some key }

theorem attempt_eq (h : s.faults = .none) (call : StoreCall) : attempt call s = .ok () s := by
  obtain ⟨cells, current, faults⟩ := s
  obtain rfl : faults = .none := h
  rfl

theorem run_get (c : StateCell β) (scope : Bytes) (h : s.faults = .none) :
    c.get scope s =
      match s.current with
      | none => .error .noCurrentKey s
      | some key =>
        match s.cells[(⟨c.state, key, scope⟩ : CellId)]? with
        | none => .ok none s
        | some bs =>
          match read β c.state bs with
          | .ok x => .ok (some x) s
          | .error e => .error e s := by
  unfold StateCell.get
  rw [Command.run_bind, attempt_eq h]
  dsimp only
  rw [Command.run_bind]
  unfold locate
  cases s.current with
  | none => rfl
  | some key =>
    dsimp only
    rw [Command.run_get_bind]
    cases s.cells[(⟨c.state, key, scope⟩ : CellId)]? with
    | none => rfl
    | some bs =>
      dsimp only
      rw [map_eq_pure_bind, Command.run_bind]
      cases read β c.state bs <;> rfl

theorem run_put (c : StateCell β) (scope : Bytes) (x : β) (h : s.faults = .none) :
    c.put scope x s =
      match s.current with
      | none => .error .noCurrentKey s
      | some key => .ok () { s with cells := s.cells.insert ⟨c.state, key, scope⟩ (encode x) } := by
  unfold StateCell.put
  rw [Command.run_bind, attempt_eq h]
  dsimp only
  rw [Command.run_bind]
  unfold locate
  cases hc : s.current with
  | none => rfl
  | some key =>
    dsimp only
    rw [Command.run_modify, hc]

omit [Encoding β] in
theorem run_clear (c : StateCell β) (scope : Bytes) (h : s.faults = .none) :
    c.clear scope s =
      match s.current with
      | none => .error .noCurrentKey s
      | some key => .ok () { s with cells := s.cells.erase ⟨c.state, key, scope⟩ } := by
  unfold StateCell.clear
  rw [Command.run_bind, attempt_eq h]
  dsimp only
  rw [Command.run_bind]
  unfold locate
  cases hc : s.current with
  | none => rfl
  | some key =>
    dsimp only
    rw [Command.run_modify, hc]

theorem select_get (c : StateCell β) (h : s.faults = .none) :
    (do select key; c.get scope) s =
      match s.cells[(⟨c.state, key, scope⟩ : CellId)]? with
      | none => .ok none (s.facing key)
      | some bs =>
        match read β c.state bs with
        | .ok x => .ok (some x) (s.facing key)
        | .error e => .error e (s.facing key) :=
  run_get (s := s.facing key) c scope h

theorem select_put (c : StateCell β) (x : β) (h : s.faults = .none) :
    (do select key; c.put scope x) s =
      .ok () { s.facing key with cells := s.cells.insert ⟨c.state, key, scope⟩ (encode x) } :=
  run_put (s := s.facing key) c scope x h

omit [Encoding β] in
theorem select_clear (c : StateCell β) (h : s.faults = .none) :
    (do select key; c.clear scope) s =
      .ok () { s.facing key with cells := s.cells.erase ⟨c.state, key, scope⟩ } :=
  run_clear (s := s.facing key) c scope h

theorem run_entries (c : StateCell β) (h : s.faults = .none) :
    c.entries s = Command.ofExcept (c.listing s) s := by
  unfold StateCell.entries
  rw [Command.run_bind, attempt_eq h]
  rfl

theorem run_snapshot (h : s.faults = .none) : snapshot s = .ok (encode s.cells) s := by
  unfold snapshot
  rw [Command.run_bind, attempt_eq h]
  rfl

theorem run_restore (h : s.faults = .none) (bs : Bytes) :
    restore bs s =
      match decode Cells bs with
      | .ok cells => .ok () { s with cells }
      | .error e => .error (.notASnapshot e) s := by
  unfold restore
  rw [Command.run_bind, attempt_eq h]
  dsimp only
  rw [Command.run_bind]
  cases decode Cells bs <;> rfl

end StateStore

/-! ### Listing a state -/

namespace CellId

/-- Before `b` by key, then by scope. -/
def Precedes (a b : CellId) : Prop := a.key < b.key ∨ a.key = b.key ∧ a.scope < b.scope

theorem compare_eq (a b : CellId) : compare a b =
    (compare a.state b.state).then ((compare a.key b.key).then (compare a.scope b.scope)) := rfl

theorem precedes_iff {a b : CellId} (h : a.state = b.state) :
    a.Precedes b ↔ compare a b = .lt := by
  rw [compare_eq, h, Std.compare_self, Ordering.eq_then, Ordering.then_eq_lt, Precedes,
    Bytes.compare_eq_lt, Bytes.compare_eq_lt, Std.compare_eq_iff_eq]

/-- No cell of a state comes before its first. -/
theorem compare_first_eq_lt {id : CellId} {state : String} :
    compare id ⟨state, [], []⟩ = .lt ↔ compare id.state state = .lt := by
  have hleast : ∀ bs : Bytes, ¬ compare bs [] = .lt := fun bs h =>
    List.not_lt_nil bs (Bytes.compare_eq_lt.1 h)
  rw [compare_eq, Ordering.then_eq_lt, Ordering.then_eq_lt]
  simp [hleast]

end CellId

/-- In ascending order, what is equal to `t` lies together: behind what comes before `t`. -/
theorem takeWhile_dropWhile_eq_filter {ι τ : Type} [Ord τ] [Std.TransOrd τ] [Std.LawfulEqOrd τ]
    [DecidableEq τ] (f : ι → τ) (t : τ) {l : List ι}
    (h : l.Pairwise fun x y => (compare (f x) (f y)).isLE) :
    (l.dropWhile fun x => compare (f x) t = .lt).takeWhile (f · = t) = l.filter (f · = t) := by
  induction l with
  | nil => rfl
  | cons x l ih =>
    obtain ⟨hx, hl⟩ := List.pairwise_cons.1 h
    cases hc : compare (f x) t with
    | lt =>
      have hne : f x ≠ t := fun he => by simp [he] at hc
      rw [List.dropWhile_cons_of_pos (by simp [hc]), ih hl, List.filter_cons_of_neg (by simp [hne])]
    | eq =>
      obtain rfl := Std.LawfulEqOrd.eq_of_compare hc
      have hself : (l.dropWhile fun y => compare (f y) (f x) = .lt) = l := by
        cases l with
        | nil => rfl
        | cons y l =>
          have hy : ¬ compare (f y) (f x) = .lt := Std.OrientedCmp.not_lt_of_isLE (hx y (by simp))
          rw [List.dropWhile_cons_of_neg (by simpa using hy)]
      rw [List.dropWhile_cons_of_neg (by simp), List.takeWhile_cons_of_pos (by simp),
        List.filter_cons_of_pos (by simp), ← ih hl, hself]
    | gt =>
      have hne : ∀ y ∈ x :: l, ¬ f y = t := by
        rintro y hy rfl
        rcases List.mem_cons.1 hy with rfl | hy
        · simp at hc
        · have hle := hx y hy
          rw [hc] at hle
          cases hle
      rw [List.dropWhile_cons_of_neg (by simp [hc]), List.takeWhile_cons_of_neg,
        List.filter_eq_nil_iff.2]
      · simpa using hne
      · simpa using hne x (by simp)

namespace StateStore

variable {s : StateStore} {state : String}

/-- The cells from the first of a state on, up to one of another state. -/
def scan (s : StateStore) (state : String) : List (CellId × Bytes) :=
  let behind := s.cells.toList.dropWhile fun p => compare p.1 ⟨state, [], []⟩ = .lt
  behind.takeWhile (·.1.state = state)

/-- A scan finds all cells of the state, whatever other states there are. -/
theorem cellsOf_eq_scan (s : StateStore) (state : String) : s.cellsOf state = s.scan state := by
  have hstates : s.cells.toList.Pairwise fun p q => (compare p.1.state q.1.state).isLE := by
    refine Std.ExtTreeMap.ordered_keys_toList.imp fun {p q} h => ?_
    rw [CellId.compare_eq, Ordering.then_eq_lt] at h
    rcases h with h | ⟨h, -⟩
    · exact Ordering.isLE_of_eq_lt h
    · exact Ordering.isLE_of_eq_eq h
  unfold scan cellsOf
  simp only [CellId.compare_first_eq_lt]
  exact (takeWhile_dropWhile_eq_filter (fun p : CellId × Bytes => p.1.state) state hstates).symm

theorem mem_cellsOf {p : CellId × Bytes} :
    p ∈ s.cellsOf state ↔ s.cells[p.1]? = some p.2 ∧ p.1.state = state := by
  rw [cellsOf, List.mem_filter, Std.ExtTreeMap.mem_toList_iff_getElem?_eq_some, decide_eq_true_eq]

theorem pairwise_cellsOf (s : StateStore) (state : String) :
    (s.cellsOf state).Pairwise fun p q => p.1.Precedes q.1 := by
  have hsorted : (s.cellsOf state).Pairwise fun p q => compare p.1 q.1 = .lt :=
    Std.ExtTreeMap.ordered_keys_toList.filter _
  refine hsorted.imp_of_mem fun {p q} hp hq h => (CellId.precedes_iff ?_).2 h
  rw [(mem_cellsOf.1 hp).2, (mem_cellsOf.1 hq).2]

/-! ### Snapshots -/

theorem decode_cells (bs : Bytes) :
    decode Cells bs = (decode (List (CellId × Bytes)) bs).map (.ofList ·) := by
  show Prod.fst <$> ((fun l : List (CellId × Bytes) => (.ofList l : Cells)) <$>
    (Encoding.decoder : Decoder (List (CellId × Bytes)))).run bs = _
  unfold decode
  rw [StateT.run_map]
  cases (Encoding.decoder : Decoder (List (CellId × Bytes))).run bs <;> rfl

variable {a b : StateStore}

/-- Cells are told apart by their snapshots. -/
theorem snapshot_eq_iff (ha : a.faults = .none) (hb : b.faults = .none)
    (hlen : (encode a.cells).length < 2 ^ 64) :
    snapshot.answer a = snapshot.answer b ↔ ∀ id : CellId, a.cells[id]? = b.cells[id]? := by
  rw [Command.answer, Command.answer, run_snapshot ha, run_snapshot hb, Except.ok.injEq]
  constructor
  · intro h id
    have hfaithful := Encoding.faithful_cells (h ▸ hlen)
    rw [(Encoding.faithful_cells hlen).encode_injective hfaithful h]
  · intro h
    rw [Std.ExtTreeMap.ext_getElem? h]

/-- A snapshot is read back, whatever follows it. -/
theorem restore_snapshot (hb : b.faults = .none) (hlen : (encode a.cells).length < 2 ^ 64)
    (more : Bytes) : restore (encode a.cells ++ more) b = .ok () { b with cells := a.cells } := by
  rw [run_restore hb, (Encoding.faithful_cells hlen).decode_append]

/-- A snapshot that is cut short is refused. -/
theorem restore_front (hb : b.faults = .none) (hlen : (encode a.cells).length < 2 ^ 64)
    {front cut : Bytes} (hsplit : front ++ cut = encode a.cells) (hcut : cut ≠ []) :
    ∃ e, restore front b = .error (.notASnapshot e) b := by
  obtain ⟨e, he⟩ := (Encoding.faithful_cells hlen).decode_eq_error hsplit hcut
  exact ⟨e, by rw [run_restore hb, he]⟩

end StateStore

/-! ### The map -/

/-- What a store means: the key that access goes through, and the encoded value of each cell that
holds one. -/
structure Holding where
  current : Option Bytes := none
  held : CellId → Option Bytes := fun _ => none

namespace StateStore

/-- A call that may change a store. -/
inductive Action : Type 1 where
  | select (key : Bytes)
  | put {β : Type} [Encoding β] (c : StateCell β) (scope : Bytes) (x : β)
  | clear {β : Type} (c : StateCell β) (scope : Bytes)
  | clearAll
  | snapshot
  | restore (bs : Bytes)

/-- A store does what is asked. -/
def Action.perform : Action → Command StateStore Unit
  | .select key => StateStore.select key
  | @put _ _ c scope x => c.put scope x
  | .clear c scope => c.clear scope
  | .clearAll => StateStore.clearAll
  | .snapshot => do let _ ← StateStore.snapshot
  | .restore bs => StateStore.restore bs

end StateStore

namespace Holding

/-- Write to the cell under the current key. -/
def write (m : Holding) (state : String) (scope : Bytes) (value : Option Bytes) :
    Except Error Holding :=
  match m.current with
  | none => .error .noCurrentKey
  | some key => .ok { m with held := Function.update m.held ⟨state, key, scope⟩ value }

/-- The last value that the list has for each cell. -/
def ofList (l : List (CellId × Bytes)) : CellId → Option Bytes :=
  l.foldl (fun held p => Function.update held p.1 (some p.2)) fun _ => none

/-- What a call makes of the map, unless it is refused. -/
def take (m : Holding) : StateStore.Action → Except Error Holding
  | .select key => .ok { m with current := some key }
  | @StateStore.Action.put _ _ c scope x => m.write c.state scope (some (encode x))
  | .clear c scope => m.write c.state scope none
  | .clearAll => .ok {}
  | .snapshot => .ok m
  | .restore bs =>
    match decode (List (CellId × Bytes)) bs with
    | .ok l => .ok { m with held := ofList l }
    | .error e => .error (.notASnapshot e)

/-- The map after a call; one that is refused changes nothing. -/
def after (m : Holding) (a : StateStore.Action) : Holding := (m.take a).toOption.getD m

/-- The value under the current key. -/
def get {β : Type} [Encoding β] (m : Holding) (c : StateCell β) (scope : Bytes) :
    Except Error (Option β) :=
  match m.current with
  | none => .error .noCurrentKey
  | some key =>
    match m.held ⟨c.state, key, scope⟩ with
    | none => .ok none
    | some bs => some <$> StateStore.read β c.state bs

end Holding

namespace StateStore

/-- The store refuses nothing of itself, and holds what the map says. -/
structure Holds (s : StateStore) (m : Holding) : Prop where
  faults : s.faults = .none
  current : s.current = m.current
  cell : ∀ id, s.cells[id]? = m.held id

variable {s : StateStore} {m : Holding}

theorem getElem?_ofList (l : List (CellId × Bytes)) (id : CellId) :
    (.ofList l : Cells)[id]? = Holding.ofList l id := by
  have hinsert : ∀ (cells : Cells) (p : CellId × Bytes),
      (fun id : CellId => (cells.insert p.1 p.2)[id]?) =
        Function.update (fun id : CellId => cells[id]?) p.1 (some p.2) := by
    intro cells p
    funext id
    simp only [Std.ExtTreeMap.getElem?_insert, Std.compare_eq_iff_eq, Function.update_apply,
      eq_comm (a := p.1)]
  have hempty : (fun id : CellId => (∅ : Cells)[id]?) = fun _ => none := by
    funext id
    simp
  have hfold : l.foldl (fun (held : CellId → Option Bytes) p =>
      Function.update held p.1 (some p.2)) (fun id => (∅ : Cells)[id]?) =
        fun id => (l.foldl (fun cells p => cells.insert p.1 p.2) ∅ : Cells)[id]? :=
    List.foldl_hom (fun (cells : Cells) (id : CellId) => cells[id]?)
      fun cells p => (hinsert cells p).symm
  rw [Std.ExtTreeMap.ofList_eq_foldl, Holding.ofList, ← hempty, hfold]

theorem holds_new : ({} : StateStore).Holds {} := ⟨rfl, rfl, fun _ => by simp⟩

/-- Each call does to the store what it does to the map, and is refused where it is there. -/
theorem Holds.perform (h : s.Holds m) (a : Action) :
    match m.take a with
    | .ok m' => ∃ s', a.perform s = .ok () s' ∧ s'.Holds m'
    | .error e => a.perform s = .error e s := by
  cases a with
  | select key => exact ⟨_, rfl, h.faults, rfl, h.cell⟩
  | put c scope x =>
    simp only [Holding.take, Holding.write, Action.perform, run_put _ _ _ h.faults, h.current]
    cases hc : m.current with
    | none => rfl
    | some key =>
      refine ⟨_, rfl, h.faults, hc ▸ rfl, fun id => ?_⟩
      simp only [Std.ExtTreeMap.getElem?_insert, Std.compare_eq_iff_eq, Function.update_apply,
        h.cell, eq_comm (a := id)]
  | clear c scope =>
    simp only [Holding.take, Holding.write, Action.perform, run_clear _ _ h.faults, h.current]
    cases hc : m.current with
    | none => rfl
    | some key =>
      refine ⟨_, rfl, h.faults, hc ▸ rfl, fun id => ?_⟩
      simp only [Std.ExtTreeMap.getElem?_erase, Std.compare_eq_iff_eq, Function.update_apply,
        h.cell, eq_comm (a := id)]
  | clearAll => exact ⟨_, rfl, h.faults, rfl, fun _ => by simp⟩
  | snapshot =>
    refine ⟨s, ?_, h⟩
    simp only [Action.perform, Command.run_bind, run_snapshot h.faults]
    rfl
  | restore bs =>
    simp only [Holding.take, Action.perform, run_restore h.faults, decode_cells]
    cases decode (List (CellId × Bytes)) bs with
    | ok l => exact ⟨_, rfl, h.faults, h.current, getElem?_ofList l⟩
    | error e => rfl

theorem Holds.after (h : s.Holds m) (a : Action) : (a.perform.after s).Holds (m.after a) ∧
    a.perform.answer s = (m.take a).map fun _ => () := by
  have hstep := h.perform a
  unfold Command.after Command.answer Holding.after
  cases htake : m.take a with
  | ok m' =>
    rw [htake] at hstep
    obtain ⟨s', hrun, hs'⟩ := hstep
    rw [hrun]
    exact ⟨hs', rfl⟩
  | error e =>
    rw [htake] at hstep
    dsimp only at hstep
    rw [hstep]
    exact ⟨h, rfl⟩

/-- So it is after any calls. -/
theorem Holds.through (h : s.Holds m) (calls : List Action) :
    (calls.foldl (fun s a => a.perform.after s) s).Holds (calls.foldl Holding.after m) := by
  induction calls generalizing s m with
  | nil => exact h
  | cons a calls ih => exact ih (h.after a).1

/-- Everything that is asked of the store is answered from the map, and changes nothing. -/
structure Shows (s : StateStore) (m : Holding) : Prop where
  finite : {id | (m.held id).isSome}.Finite
  current : s.current = m.current
  cell : ∀ id : CellId, s.cells[id]? = m.held id
  get : ∀ {β : Type} [Encoding β] (c : StateCell β) (scope : Bytes),
    c.get scope s = Command.ofExcept (m.get c scope) s
  /-- A value that was put is read. -/
  value : ∀ {β : Type} [Encoding β] (c : StateCell β) (scope key : Bytes) (x : β),
    Encoding.Faithful x → m.current = some key → m.held ⟨c.state, key, scope⟩ = some (encode x) →
    c.get scope s = .ok (some x) s
  /-- The cells of a state are listed by key, then scope, unless one of them cannot be read. -/
  entries : ∀ {β : Type} [Encoding β] (c : StateCell β), ∃ l : List (CellId × Bytes),
    (l.Pairwise fun p q => p.1.Precedes q.1) ∧
    (∀ id bs, (id, bs) ∈ l ↔ id.state = c.state ∧ m.held id = some bs) ∧
    c.entries s = Command.ofExcept (l.mapM fun p => (p.1, ·) <$> read β c.state p.2) s
  /-- Where the cells of a state hold values, all of them are listed. -/
  values : ∀ {β : Type} [Encoding β] (c : StateCell β) (x : CellId → Option β),
    (∀ id y, x id = some y → Encoding.Faithful y) →
    (∀ id, id.state = c.state → m.held id = (x id).map encode) →
    ∃ l : List (CellId × β), (l.Pairwise fun p q => p.1.Precedes q.1) ∧
      (∀ id y, (id, y) ∈ l ↔ id.state = c.state ∧ x id = some y) ∧ c.entries s = .ok l s
  snapshot : ∃ l : List (CellId × Bytes), (l.Pairwise fun p q => compare p.1 q.1 = .lt) ∧
    (∀ id bs, (id, bs) ∈ l ↔ m.held id = some bs) ∧ StateStore.snapshot s = .ok (encode l) s

theorem Holds.get (h : s.Holds m) {β : Type} [Encoding β] (c : StateCell β) (scope : Bytes) :
    c.get scope s = Command.ofExcept (m.get c scope) s := by
  rw [run_get c scope h.faults, h.current, Holding.get]
  cases m.current with
  | none => rfl
  | some key =>
    dsimp only
    rw [h.cell]
    cases m.held ⟨c.state, key, scope⟩ with
    | none => rfl
    | some bs =>
      dsimp only
      cases read β c.state bs <;> rfl

/-- Where every step of a traversal answers, it answers with what the steps answer. -/
theorem mapM_eq_filterMap {ι τ : Type} {f : ι → Except Error τ} {g : ι → Option τ} {l : List ι}
    (h : ∀ p ∈ l, ∃ y, g p = some y ∧ f p = .ok y) : l.mapM f = .ok (l.filterMap g) := by
  induction l with
  | nil => rfl
  | cons p l ih =>
    obtain ⟨y, hg, hf⟩ := h p (by simp)
    rw [List.mapM_cons, hf, ih fun q hq => h q (by simp [hq]), List.filterMap_cons_some hg]
    rfl

theorem Holds.values (h : s.Holds m) {β : Type} [Encoding β] (c : StateCell β)
    {x : CellId → Option β} (hx : ∀ id y, x id = some y → Encoding.Faithful y)
    (hheld : ∀ id, id.state = c.state → m.held id = (x id).map encode) :
    ∃ l : List (CellId × β), (l.Pairwise fun p q => p.1.Precedes q.1) ∧
      (∀ id y, (id, y) ∈ l ↔ id.state = c.state ∧ x id = some y) ∧ c.entries s = .ok l s := by
  have hcell : ∀ id bs, (id, bs) ∈ s.cellsOf c.state ↔
      id.state = c.state ∧ ∃ y, x id = some y ∧ encode y = bs := fun id bs => by
    rw [mem_cellsOf, h.cell, and_comm]
    refine and_congr_right fun hid => ?_
    rw [hheld id hid, Option.map_eq_some_iff]
  refine ⟨(s.cellsOf c.state).filterMap fun p => (x p.1).map (p.1, ·), ?_, fun id y => ?_, ?_⟩
  · refine (s.pairwise_cellsOf c.state).filterMap _ fun p q hpq p' hp' q' hq' => ?_
    obtain ⟨y, _, rfl⟩ := Option.map_eq_some_iff.1 hp'
    obtain ⟨z, _, rfl⟩ := Option.map_eq_some_iff.1 hq'
    exact hpq
  · simp only [List.mem_filterMap, Option.map_eq_some_iff, Prod.mk.injEq]
    constructor
    · rintro ⟨⟨id, bs⟩, hp, y, hy, rfl, rfl⟩
      exact ⟨((hcell id bs).1 hp).1, hy⟩
    · rintro ⟨hid, hy⟩
      exact ⟨(id, encode y), (hcell id _).2 ⟨hid, y, hy, rfl⟩, y, hy, rfl, rfl⟩
  · rw [run_entries c h.faults, StateCell.listing]
    rw [mapM_eq_filterMap (g := fun p => (x p.1).map (p.1, ·))]
    · rfl
    · rintro ⟨id, bs⟩ hp
      obtain ⟨_, y, hy, rfl⟩ := (hcell id bs).1 hp
      refine ⟨(id, y), by rw [hy]; rfl, ?_⟩
      rw [read, Encoding.decodeAs_encode (hx id y hy)]
      rfl

theorem Holds.shows (h : s.Holds m) : s.Shows m where
  finite := by
    refine s.cells.keys.toFinset.finite_toSet.subset fun id hid => ?_
    rw [Finset.mem_coe, List.mem_toFinset, Std.ExtTreeMap.mem_keys,
      Std.ExtTreeMap.mem_iff_isSome_getElem?, h.cell]
    exact hid
  current := h.current
  cell := h.cell
  get := h.get
  value c scope key x hx hkey hheld := by
    rw [h.get, Holding.get, hkey]
    dsimp only
    rw [hheld]
    dsimp only
    rw [read, Encoding.decodeAs_encode hx]
    rfl
  entries c := ⟨s.cellsOf c.state, s.pairwise_cellsOf c.state,
    fun id bs => by rw [mem_cellsOf, h.cell, and_comm], run_entries c h.faults⟩
  values c x := h.values c
  snapshot := ⟨s.cells.toList, Std.ExtTreeMap.ordered_keys_toList,
    fun id bs => by rw [Std.ExtTreeMap.mem_toList_iff_getElem?_eq_some, h.cell],
    run_snapshot h.faults⟩

/-- Whatever calls came before, a store is a finite map: everything that is asked of it is answered
from the map, and every call does to it what it does to the map, or is refused and changes nothing.
Stores that hold the same, and no others, have the same snapshot. Any store that starts over from a
snapshot, whatever follows it, holds what the snapshot was taken of; a snapshot that is cut short is
refused, and what is refused changes nothing. -/
theorem refines_map :
    (∀ calls : List Action,
      let s := calls.foldl (fun s a => a.perform.after s) {}
      let m := calls.foldl Holding.after {}
      s.Shows m ∧ ∀ a : Action, a.perform.answer s = (m.take a).map fun _ => ()) ∧
    (∀ a b : StateStore, a.faults = .none → b.faults = .none →
      (encode a.cells).length < 2 ^ 64 →
      ((∀ id : CellId, a.cells[id]? = b.cells[id]?) ↔ snapshot.answer a = snapshot.answer b) ∧
      ∀ bs, snapshot.answer a = .ok bs →
        (∀ more, restore (bs ++ more) b = .ok () { b with cells := a.cells }) ∧
        ∀ front cut, front ++ cut = bs → cut ≠ [] →
          ∃ e, restore front b = .error (.notASnapshot e) b) ∧
    ∀ (b b' : StateStore) (bs : Bytes) (e : Error), b.faults = .none →
      restore bs b = .error e b' → b' = b := by
  refine ⟨fun calls => ?_, fun a b ha hb hlen => ⟨?_, fun bs hbs => ?_⟩,
    fun b b' bs e hb hrun => ?_⟩
  · have h := holds_new.through calls
    exact ⟨h.shows, fun a => (h.after a).2⟩
  · exact (snapshot_eq_iff ha hb hlen).symm
  · obtain ⟨_, hrun⟩ := Command.answer_eq_ok.1 hbs
    rw [run_snapshot ha] at hrun
    cases hrun
    exact ⟨restore_snapshot hb hlen, fun front cut => restore_front hb hlen⟩
  · rw [run_restore hb] at hrun
    cases hdecode : decode Cells bs with
    | ok cells =>
      rw [hdecode] at hrun
      cases hrun
    | error cause =>
      rw [hdecode] at hrun
      cases hrun
      rfl

/-- The name of one state begins with that of the other, and a value is put over another. -/
theorem refines_map_prefixed :
    let one : StateCell Int64 := ⟨"a"⟩
    let other : StateCell Int64 := ⟨"ab"⟩
    let calls : List Action := [.select [7], .put other [] 5, .put one [1] 6, .select [2],
      .put one [3] 8, .put other [3] 4, .put one [3] 9]
    let s : StateStore := calls.foldl (fun s a => a.perform.after s) {}
    one.get [3] s = .ok (some 9) s ∧
      (one.entries.answer s).toOption = some [(⟨"a", [2], [3]⟩, 9), (⟨"a", [7], [1]⟩, 6)] ∧
      restore (encode s.cells ++ [1, 2, 3]) {} = .ok () { cells := s.cells } ∧
      ∃ e, restore ((encode s.cells).take 20) s = .error (.notASnapshot e) s := by
  intro one other calls s
  have hfaults : s.faults = .none := by decide +kernel
  have hlen : (encode s.cells).length < 2 ^ 64 := by decide +kernel
  have hshort : 20 < (encode s.cells).length := by decide +kernel
  obtain ⟨hruns, hsnapshots, -⟩ := refines_map
  obtain ⟨hshows, -⟩ := hruns calls
  obtain ⟨-, hstart⟩ := hsnapshots s {} hfaults rfl hlen
  obtain ⟨-, hcut⟩ := hsnapshots s s hfaults hfaults hlen
  have hbs : snapshot.answer s = .ok (encode s.cells) :=
    Command.answer_eq_ok.2 ⟨s, run_snapshot hfaults⟩
  refine ⟨hshows.value one [3] [2] 9 (faithful 9) rfl rfl, by decide +kernel,
    (hstart _ hbs).1 [1, 2, 3], (hcut _ hbs).2 _ _ (List.take_append_drop 20 _) fun hnil => ?_⟩
  rw [List.drop_eq_nil_iff] at hnil
  omega

end StateStore

/-! ### The plan of refusals -/

namespace StateStore

/-- The call as which an action passes the plan of refusals. -/
def Action.call? : Action → Option StoreCall
  | .select _ | .clearAll => none
  | @put .. => some .put
  | .clear .. => some .clear
  | .snapshot => some .snapshot
  | .restore _ => some .restore

/-- `c` asks the plan once. It uses up the entry that answers, and it does nothing else when that
entry refuses it. -/
structure Asks {β : Type} (call : StoreCall) (c : Command StateStore β) : Prop where
  spends : ∀ s, (c.after s).faults = (s.faults.next call).2
  refused : ∀ s, (s.faults.next call).1 →
    c s = .error (.refused call) { s with faults := (s.faults.next call).2 }

section Asks

variable {β γ : Type}

theorem asks_attempt (call : StoreCall) : Asks call (attempt call) where
  spends s := by
    unfold attempt Command.after
    dsimp only
    rcases s.faults.next call with ⟨_ | _, faults⟩ <;> rfl
  refused s h := by
    unfold attempt
    dsimp only
    rw [if_pos h]

/-- What comes after the question does not touch the plan. -/
theorem Asks.bind {call : StoreCall} {c : Command StateStore β} {k : β → Command StateStore γ}
    (hc : Asks call c) (hk : ∀ x, Command.Retains faults (k x)) : Asks call (c >>= k) where
  spends s := by
    have hfirst := hc.spends s
    rw [Command.after_bind]
    unfold Command.after at hfirst
    cases hrun : c s with
    | ok x s' =>
      rw [hrun] at hfirst
      exact (hk x s').trans hfirst
    | error e s' =>
      rw [hrun] at hfirst
      exact hfirst
  refused s h := by rw [Command.run_bind, hc.refused s h]

theorem retains_locate (state : String) (scope : Bytes) :
    Command.Retains faults (locate state scope) := by
  rintro ⟨cells, _ | key, faults⟩ <;> rfl

theorem asks_snapshot : Asks .snapshot snapshot := (asks_attempt _).bind fun _ _ => rfl

theorem asks_restore (bs : Bytes) : Asks .restore (restore bs) :=
  (asks_attempt _).bind fun _ => (Command.retains_ofExcept _).bind fun _ _ => rfl

end Asks

end StateStore

namespace StateCell

open StateStore

variable {β : Type} [Encoding β]

theorem asks_get (c : StateCell β) (scope : Bytes) : Asks .get (c.get scope) := by
  refine (asks_attempt _).bind fun _ => (retains_locate c.state scope).bind fun id => ?_
  refine Command.retains_get fun s => ?_
  cases s.cells[id]? with
  | none => exact fun _ => rfl
  | some bs => exact Command.composes_retains.map (Command.retains_ofExcept _) some

theorem asks_put (c : StateCell β) (scope : Bytes) (x : β) : Asks .put (c.put scope x) :=
  (asks_attempt _).bind fun _ => (retains_locate c.state scope).bind fun _ _ => rfl

omit [Encoding β] in
theorem asks_clear (c : StateCell β) (scope : Bytes) : Asks .clear (c.clear scope) :=
  (asks_attempt _).bind fun _ => (retains_locate c.state scope).bind fun _ _ => rfl

theorem asks_entries (c : StateCell β) : Asks .entries c.entries :=
  (asks_attempt _).bind fun _ => Command.retains_get fun s => Command.retains_ofExcept (c.listing s)

end StateCell

namespace StateStore

theorem Action.asks {a : Action} {call : StoreCall} (h : a.call? = some call) :
    Asks call a.perform := by
  cases a with
  | select key => cases h
  | put c scope x =>
    cases h
    exact c.asks_put scope x
  | clear c scope =>
    cases h
    exact c.asks_clear scope
  | clearAll => cases h
  | snapshot =>
    cases h
    exact asks_snapshot.bind fun _ _ => rfl
  | restore bs =>
    cases h
    exact asks_restore bs

theorem faults_after (a : Action) (s : StateStore) :
    (a.perform.after s).faults =
      { s.faults with script := s.faults.script.drop a.call?.toList.length } := by
  cases hcall : a.call? with
  | some call =>
    rw [(Action.asks hcall).spends, FaultPlan.next_eq]
    simp
  | none =>
    cases a with
    | select key => rfl
    | clearAll => rfl
    | _ => cases hcall

/-- After any calls, whatever came of them, one entry is used up for each of those that asked. -/
theorem faults_through (calls : List Action) (s : StateStore) :
    (calls.foldl (fun s a => a.perform.after s) s).faults =
      { s.faults with script := s.faults.script.drop (calls.filterMap Action.call?).length } := by
  induction calls generalizing s with
  | nil => rfl
  | cons a calls ih =>
    rw [List.foldl_cons, ih, faults_after]
    cases hcall : a.call? <;> simp [hcall]

end StateStore

end Tidemark
