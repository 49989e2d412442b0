import HingeLoss.Proofs.Atoms.Keeping

/-!
# HingeLoss.Proofs.Atoms.Rows

A table without a place, seen as one list of rows.

1. `AtomTable.rows` puts together what the table knows of each atom.
2. `TableOp` is what can be done to a table, and `TableOp.onRows` says what that is for a list of
   rows, where nothing can get out of step.
3. Each operation on the table is the one on its rows, with the same answer
   (`TableOp.simulates_onRows`); so any number of them are.
4. An operation that is refused leaves everything as it is, and none of them changes the kind or the
   initial value of an atom that is there.
-/

namespace HingeLoss

/-- What a table knows of an atom. -/
structure Row where
  kind : AtomKind
  initial : Single
  committed : Single
  present : Single
deriving DecidableEq, Repr

namespace Row

/-- How far the present value is from the committed one. -/
def distance (r : Row) : Double := (Double.ofSingle r.present - Double.ofSingle r.committed).abs

/-- The sum of the distances, from the first row to the last. -/
def totalDistance (rows : List Row) : Double :=
  rows.foldl (fun s r => s + r.distance) .negativeZero

/-- What never changes of a row. -/
def stock (r : Row) : AtomKind × Single := (r.kind, r.initial)

end Row

namespace AtomTable

/-- The row of an atom that has a present value. -/
def rowOf (a : Atom) (present : Single) : Row := ⟨a.kind, a.initial, a.committed, present⟩

def rows (t : AtomTable) : List Row := List.zipWith rowOf t.atoms.toList t.values.toList

variable {t t' : AtomTable}

@[simp] theorem length_rows (t : AtomTable) : t.rows.length = t.size := by
  simp [rows, size, t.size_values]

/-! ## The columns of the rows -/

theorem toList_kinds (t : AtomTable) : t.kinds.toList = t.rows.map Row.kind :=
  List.ext_getElem (by simp [kinds, size]) fun i hi hi' => by simp [kinds, rows, rowOf]

theorem toList_initial (t : AtomTable) : t.initial.toList = t.rows.map Row.initial :=
  List.ext_getElem (by simp [initial, size]) fun i hi hi' => by simp [initial, rows, rowOf]

theorem toList_committed (t : AtomTable) : t.committed.toList = t.rows.map Row.committed :=
  List.ext_getElem (by simp) fun i hi hi' => by simp [committed, rows, rowOf]

theorem toList_values (t : AtomTable) : t.values.toList = t.rows.map Row.present :=
  List.ext_getElem (by simp [size, t.size_values]) fun i hi hi' => by simp [rows, rowOf]

/-- A table is nothing but its rows and its place. -/
theorem eq_of_rows (hrows : t.rows = t'.rows) (hplace : t.place = t'.place) : t = t' := by
  have hsize : t.atoms.size = t'.atoms.size := by
    simpa [size] using congrArg List.length hrows
  have hvalues : t.values = t'.values := by
    rw [← Array.toList_inj, toList_values, toList_values, hrows]
  refine eq_of_fields (Array.ext hsize fun i hi hi' => ?_) hvalues hplace
  have hrow := congrArg (·[i]?) hrows
  simp only [rows, List.getElem?_zipWith, Array.getElem?_toList, hvalues,
    Array.getElem?_eq_getElem hi, Array.getElem?_eq_getElem hi'] at hrow
  grind [rowOf, Atom, t'.size_values]

/-- The atoms are those that are observed and those that are not. -/
theorem counts_add (t : AtomTable) : t.counts.observed + t.counts.unobserved = t.size := by
  have hall := List.length_eq_countP_add_countP (l := t.atoms.toList) fun a => a.kind.isObserved
  rw [Array.length_toList, Array.countP_toList, Array.countP_toList] at hall
  simpa [counts, size] using hall.symm

/-! ## The rows of a table that is changed -/

theorem rows_push {a : Atom} {value : Single} (hatoms : t'.atoms = t.atoms.push a)
    (hvalues : t'.values = t.values.push value) : t'.rows = t.rows ++ [rowOf a value] := by
  simp [rows, hatoms, hvalues, List.zipWith_append, t.size_values]

theorem rows_setValue (i : Nat) (value : Single)
    (h : (t.values.setIfInBounds i value).size = t.atoms.size) :
    ({ t with values := t.values.setIfInBounds i value, size_values := h } : AtomTable).rows =
      t.rows.modify i fun r => { r with present := value } := by
  refine List.ext_getElem? fun j => ?_
  simp only [rows, List.getElem?_zipWith, List.getElem?_modify, Array.getElem?_toList,
    Array.getElem?_setIfInBounds]
  grind [rowOf]

theorem rows_setValues (values : Array Single) (h : values.size = t.atoms.size) :
    ({ t with values, size_values := h } : AtomTable).rows =
      List.zipWith (fun r v => { r with present := v }) t.rows values.toList := by
  refine List.ext_getElem (by simp [rows, h, t.size_values]) fun i hi hi' => ?_
  simp [rows, rowOf]

theorem rows_reset (t : AtomTable) :
    t.reset.rows = t.rows.map fun r => { r with present := r.initial } := by
  refine List.ext_getElem (by simp [size, reset]) fun i hi hi' => ?_
  simp [rows, rowOf, reset]

theorem rows_commit (t : AtomTable) :
    t.commit.rows = t.rows.map fun r => { r with committed := r.present } := by
  refine List.ext_getElem (by simp) fun i hi hi' => ?_
  simp [rows, rowOf, commit]

/-- The values have moved by what the rows have. -/
theorem change_eq_totalDistance (t : AtomTable) : t.change = Row.totalDistance t.rows := by
  have hrows : t.rows = (t.values.zip t.atoms).toList.map fun p => rowOf p.2 p.1 := by
    refine List.ext_getElem (by simp [size, t.size_values]) fun i hi hi' => ?_
    simp [rows]
  rw [change, Row.totalDistance, hrows, List.foldl_map, ← Array.foldl_toList]
  rfl

end AtomTable

/-! ## Operations -/

/-- What can be done to a table. -/
inductive TableOp where
  | push (kind : AtomKind) (value : Single)
  | setValue (v : Variable) (value : Single)
  | setValues (values : Array Single)
  | reset
  | sync

/-- The answer of a table to an operation that succeeds. -/
inductive TableAnswer where
  | added (v : Variable)
  | moved (distance : Double)
  | done

namespace TableOp

/-- Carries an operation out. -/
def run : TableOp → EStateM Fault AtomTable TableAnswer
  | push kind value => return .added (← AtomTable.push kind value)
  | setValue v value => do
    AtomTable.setValue v value
    return .done
  | setValues values => do
    AtomTable.setValues values
    return .done
  | reset => do
    modify AtomTable.reset
    return .done
  | sync => return .moved (← AtomTable.sync)

/-- What an operation is on a list of rows. -/
def onRows : TableOp → EStateM Fault (List Row) TableAnswer
  | push kind value => fun rows =>
    if value.isFinite = true ∧ 0 ≤ value ∧ value ≤ 1 then
      if rows.length ≤ AtomTable.maxIndex then
        .ok (.added (.ofNat rows.length)) (rows ++ [⟨kind, value, value, value⟩])
      else .error (.capacity .variableIndex rows.length AtomTable.maxIndex) rows
    else .error (.invalidValue rows.length value) rows
  | setValue v value => fun rows =>
    if v.toNat < rows.length then
      .ok .done (rows.modify v.toNat fun r => { r with present := value })
    else .error (.outOfBounds v.toNat rows.length) rows
  | setValues values => fun rows =>
    if values.size = rows.length then
      .ok .done (List.zipWith (fun r v => { r with present := v }) rows values.toList)
    else .error (.outOfBounds values.size rows.length) rows
  | reset => fun rows => .ok .done (rows.map fun r => { r with present := r.initial })
  | sync => fun rows =>
    .ok (.moved (Row.totalDistance rows)) (rows.map fun r => { r with committed := r.present })

/-! ## One operation -/

/-- A table without a place that has these rows. -/
def HasRows (t : AtomTable) (rows : List Row) : Prop := t.place = none ∧ t.rows = rows

theorem simulates_push (kind : AtomKind) (value : Single) :
    Simulates HasRows (push kind value).run (push kind value).onRows := by
  rintro t _ ⟨hplace, rfl⟩
  cases hpush : AtomTable.push kind value t with
  | ok v t' =>
    obtain ⟨haccepts, hroom, rfl, hatoms, hvalues, hsame⟩ := AtomTable.push_eq_ok_iff.mp hpush
    have hvalue := AtomTable.acceptsValue_iff.mp haccepts
    simp only [run, bind_ok hpush, pure_apply, onRows, AtomTable.length_rows, if_pos hvalue,
      if_pos hroom]
    exact ⟨rfl, hsame.trans hplace, AtomTable.rows_push hatoms hvalues⟩
  | error e t' =>
    obtain ⟨rfl, ⟨hrefused, rfl⟩ | ⟨haccepts, hfull, rfl⟩⟩ := AtomTable.push_eq_error hpush
    · have hvalue : ¬ (value.isFinite = true ∧ 0 ≤ value ∧ value ≤ 1) := by
        simp [← AtomTable.acceptsValue_iff, hrefused]
      simp only [run, bind_error hpush, onRows, AtomTable.length_rows, if_neg hvalue]
      exact ⟨rfl, hplace, rfl⟩
    · have hvalue := AtomTable.acceptsValue_iff.mp haccepts
      simp only [run, bind_error hpush, onRows, AtomTable.length_rows, if_pos hvalue,
        if_neg (Nat.not_le.mpr hfull)]
      exact ⟨rfl, hplace, rfl⟩

theorem simulates_setValue (v : Variable) (value : Single) :
    Simulates HasRows (setValue v value).run (setValue v value).onRows := by
  rintro t _ ⟨hplace, rfl⟩
  by_cases hv : v.toNat < t.size
  · simp only [run, AtomTable.setValue, bind, EStateM.bind, onRows, AtomTable.length_rows,
      if_pos hv]
    exact ⟨rfl, hplace, t.rows_setValue v.toNat value _⟩
  · simp only [run, AtomTable.setValue, bind, EStateM.bind, onRows, AtomTable.length_rows,
      if_neg hv]
    exact ⟨rfl, hplace, rfl⟩

theorem simulates_setValues (values : Array Single) :
    Simulates HasRows (setValues values).run (setValues values).onRows := by
  rintro t _ ⟨hplace, rfl⟩
  by_cases hsize : values.size = t.size
  · simp only [run, bind_ok (AtomTable.setValues_ok hsize), onRows, AtomTable.length_rows,
      if_pos hsize]
    exact ⟨rfl, hplace, t.rows_setValues values hsize⟩
  · have hrun : AtomTable.setValues values t = .error (.outOfBounds values.size t.size) t :=
      dif_neg hsize
    simp only [run, bind_error hrun, onRows, AtomTable.length_rows, if_neg hsize]
    exact ⟨rfl, hplace, rfl⟩

/-- **An operation on a table without a place is the same operation on its rows.** -/
theorem simulates_onRows (op : TableOp) : Simulates HasRows op.run op.onRows := by
  cases op with
  | push kind value => exact simulates_push kind value
  | setValue v value => exact simulates_setValue v value
  | setValues values => exact simulates_setValues values
  | reset =>
    rintro t _ ⟨hplace, rfl⟩
    exact ⟨rfl, hplace, t.rows_reset⟩
  | sync =>
    rintro t _ ⟨hplace, rfl⟩
    simp only [run, bind_ok (AtomTable.sync_of_place_none hplace), pure_apply, onRows]
    exact ⟨by rw [t.change_eq_totalDistance], hplace, t.rows_commit⟩

/-- An operation that is refused leaves all rows as they are. -/
theorem onRows_eq_error {op : TableOp} {rows rows' : List Row} {e : Fault}
    (h : op.onRows rows = .error e rows') : rows' = rows := by
  cases op <;> grind [onRows]

/-- An operation that is refused leaves the table as it is, if there is no place to save it at. -/
theorem run_eq_error {op : TableOp} {t t' : AtomTable} {e : Fault} (hplace : t.place = none)
    (h : op.run t = .error e t') : t' = t := by
  have hagree := op.simulates_onRows t t.rows ⟨hplace, rfl⟩
  cases hrows : op.onRows t.rows with
  | ok a rows => simp only [h, hrows, Agree] at hagree
  | error f rows =>
    simp only [h, hrows, Agree] at hagree
    obtain ⟨-, hplace', hsame⟩ := hagree
    rw [onRows_eq_error hrows] at hsame
    exact AtomTable.eq_of_rows hsame (hplace'.trans hplace.symm)

/-- Rows that move keep what never changes of them. -/
theorem map_stock_congr {rows rows' : List Row} (hlength : rows'.length = rows.length)
    (h : ∀ (i : Nat) (hi : i < rows.length) (hi' : i < rows'.length),
      rows'[i].stock = rows[i].stock) : rows'.map Row.stock = rows.map Row.stock :=
  List.ext_getElem (by simp [hlength]) fun i hi hi' => by
    simpa using h i (by simpa using hi') (by simpa using hi)

/-- No operation takes a row away, or changes the kind or the initial value of one. -/
theorem keeps_stock (op : TableOp) (base : List (AtomKind × Single)) :
    Preserves (fun rows => base <+: rows.map Row.stock) op.onRows := by
  refine Keeps.of_finalState fun rows hrows => ?_
  have hmoved {rows' : List Row} (h : rows'.map Row.stock = rows.map Row.stock) :
      base <+: rows'.map Row.stock := h ▸ hrows
  cases hrun : op.onRows rows with
  | error e rows' =>
    obtain rfl := onRows_eq_error hrun
    exact hrows
  | ok a rows' =>
    cases op with
    | push kind value =>
      have hadded : rows' = rows ++ [⟨kind, value, value, value⟩] := by grind [onRows]
      simpa [finalState, hadded] using hrows.trans (List.prefix_append ..)
    | setValue v value =>
      have hset : rows' = rows.modify v.toNat fun r => { r with present := value } := by
        grind [onRows]
      refine hmoved (map_stock_congr ?_ ?_) <;> grind [finalState, Row.stock]
    | setValues values =>
      have hset : values.size = rows.length ∧
          rows' = List.zipWith (fun r v => { r with present := v }) rows values.toList := by
        grind [onRows]
      refine hmoved (map_stock_congr ?_ ?_) <;> grind [finalState, Row.stock]
    | reset =>
      cases hrun
      exact hmoved (by simp [finalState, Row.stock, Function.comp_def])
    | sync =>
      cases hrun
      exact hmoved (by simp [finalState, Row.stock, Function.comp_def])

end TableOp

/-! ## Any number of operations -/

namespace AtomTable

/-- **A table is one list of rows.**  Whatever is done to a table without a place, in any order:

1. each operation answers what it answers on the rows, and the table has the rows that it leaves;
2. kinds, initial values, committed values and present values are as many as atoms;
3. they are the columns of the rows;
4. the kinds and the initial values of the atoms that were there are what they were;
5. the atoms are those that are observed and those that are not;
6. an operation that is refused leaves the table as it is. -/
theorem acts_on_rows {t : AtomTable} (hplace : t.place = none) (ops : List TableOp) :
    let t' := stateAfter TableOp.run ops t
    answersTo TableOp.run ops t = answersTo TableOp.onRows ops t.rows ∧
      t'.rows = stateAfter TableOp.onRows ops t.rows ∧
      (t'.kinds.size = t'.size ∧ t'.initial.size = t'.size ∧ t'.committed.size = t'.size ∧
        t'.values.size = t'.size) ∧
      (t'.kinds.toList = t'.rows.map Row.kind ∧ t'.initial.toList = t'.rows.map Row.initial ∧
        t'.committed.toList = t'.rows.map Row.committed ∧
        t'.values.toList = t'.rows.map Row.present) ∧
      (t.kinds.toList <+: t'.kinds.toList ∧ t.initial.toList <+: t'.initial.toList) ∧
      t'.counts.observed + t'.counts.unobserved = t'.size ∧
      ∀ op e u, TableOp.run op t' = .error e u → u = t' := by
  intro t'
  obtain ⟨hplace', hrows⟩ : TableOp.HasRows t' (stateAfter TableOp.onRows ops t.rows) :=
    Simulates.stateAfter (fun op _ => op.simulates_onRows) ⟨hplace, rfl⟩
  have hstock : t.rows.map Row.stock <+: t'.rows.map Row.stock := by
    rw [hrows]
    exact Keeps.stateAfter (fun op _ => TableOp.keeps_stock op _) (List.prefix_refl _)
  refine ⟨Simulates.answersTo (fun op _ => op.simulates_onRows) ⟨hplace, rfl⟩, hrows, ?_,
    ⟨t'.toList_kinds, t'.toList_initial, t'.toList_committed, t'.toList_values⟩, ?_, t'.counts_add,
    fun op e u hrun => TableOp.run_eq_error hplace' hrun⟩
  · simp [kinds, initial, size, t'.size_values]
  · have hkinds := hstock.map Prod.fst
    have hinitial := hstock.map Prod.snd
    simp only [List.map_map, Function.comp_def, Row.stock] at hkinds hinitial
    rw [toList_kinds, toList_kinds, toList_initial, toList_initial]
    exact ⟨hkinds, hinitial⟩

/-- An atom that is moved and committed, one that is refused, one that comes in after that, and a
reset: the second sync finds that only the first atom has moved. -/
def movesOps : List TableOp :=
  [.push .unobserved ⟨0x3f000000⟩, .setValue ⟨0⟩ ⟨0x3f800000⟩, .sync, .push .observed ⟨0x7fc00000⟩,
    .push .observed 0, .reset, .sync]

/-- The table of those moves has two rows. -/
theorem acts_on_rows_moves : ({} : AtomTable).place = none ∧
    answersTo TableOp.run movesOps {} =
      [.ok (.added ⟨0⟩), .ok .done, .ok (.moved ⟨0x3fe0000000000000⟩),
        .error (.invalidValue 1 ⟨0x7fc00000⟩), .ok (.added ⟨1⟩), .ok .done,
        .ok (.moved ⟨0x3fe0000000000000⟩)] ∧
    (stateAfter TableOp.run movesOps {}).rows =
      [⟨.unobserved, ⟨0x3f000000⟩, ⟨0x3f000000⟩, ⟨0x3f000000⟩⟩, ⟨.observed, 0, 0, 0⟩] := by
  obtain ⟨hanswers, hrows, -⟩ := acts_on_rows (t := {}) rfl movesOps
  exact ⟨rfl, hanswers.trans rfl, hrows.trans rfl⟩

end AtomTable

end HingeLoss
