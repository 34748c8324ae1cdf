import SqdData.Query.RowPredicate

/-!
# Relations between tables

A relation takes rows of one table to rows of another one: rows with an equal key, or the rows above
or below a row in a tree. The rows of a tree have a group key and an address, and the address of a
parent is a proper beginning of the addresses of its children.

A chunk is given by the rows its tables offer to a scan. Joins and groups are those of the data
frame library: a key with a null in it has no match, and the order of groups is not looked at.
-/

namespace Query

open List

open Arrow Storage

/-- `Chunk`: the rows of its tables. -/
structure Chunk where
  scanTable : String → Except Error RecordBatch

def keyColumns (batch : RecordBatch) (key : List String) : Except Error (List Column) :=
  key.mapM fun name =>
    match batch.columnByName name with
    | some c => .ok c
    | none => .error (.text s!"not found: {name}")

def rowKey (columns : List Column) (row : Nat) : List Value :=
  columns.map fun c => c.values.getD row .null

/-- The rows a selection names. They must exist. -/
def selectRows (batch : RecordBatch) (input : Finset Nat) : Except Error (List Nat) := do
  ensure (decide (∀ row ∈ input, row < batch.numRows)) (.text "row selection is out of bounds")
  return (List.range batch.numRows).filter (· ∈ input)

/-- What the data frame library requires of the keys of a join. -/
def checkJoinKeys (left right : List Column) : Except Error Unit := do
  ensure (left.length = right.length)
    (.text "the number of columns given as join keys should be equal")
  ensure (!left.isEmpty) (.text "expected join keys")
  ensure (left.map (·.dataType) = right.map (·.dataType))
    (.text "datatypes of join keys don't match")

/-- The rows whose key is one of the given keys. A null has no match. -/
def semiJoin (rows : List Nat) (key : Nat → List Value) (keys : List (List Value)) : List Nat :=
  rows.filter fun row => decide (.null ∉ key row) && decide (key row ∈ keys)

def evalJoin (chunk : Chunk) (input : Finset Nat) (inputTable : String) (inputKey : List String)
    (outputTable : String) (outputKey : List String) : Except Error (List Nat) := do
  let inputBatch ← chunk.scanTable inputTable
  let inputRows ← selectRows inputBatch input
  let inputColumns ← keyColumns inputBatch inputKey
  let outputBatch ← chunk.scanTable outputTable
  let outputColumns ← keyColumns outputBatch outputKey
  checkJoinKeys outputColumns inputColumns
  return semiJoin (List.range outputBatch.numRows) (rowKey outputColumns)
    (inputRows.map (rowKey inputColumns))

abbrev Address := List Int

/-- A row of a tree. -/
structure StackRow where
  address : Address
  row : Nat
deriving DecidableEq

/-- `Stack`: the rows of some groups. -/
structure Stack where
  addressType : DataType
  groups : List (List StackRow)

/-- The address of a row, as its buffers give it: a null is an empty list, and there is a zero under
a null item. -/
def addressOf : Value → Address
  | .list items => items.map fun
      | .int i => i
      | _ => 0
  | _ => []

def groupRows (rows : List Nat) (groupKey : Nat → List Value) (address : Nat → Value)
    (group : List Value) : List StackRow :=
  (rows.filter fun row => groupKey row = group).map fun row =>
    { address := addressOf (address row), row }

/-- The last column of a key is the address, and those before it are the group key. -/
def splitKey (columns : List Column) : Except Error (List Column × Column) :=
  match columns.getLast? with
  | some address => .ok (columns.dropLast, address)
  | none => .error (.text "key is empty")

def selectStack (chunk : Chunk) (table : String) (key : List String) (input : Finset Nat) :
    Except Error Stack := do
  let items ← chunk.scanTable table
  let columns ← keyColumns items key
  let (groupColumns, addressColumn) ← splitKey columns
  checkJoinKeys groupColumns groupColumns
  let rows := List.range items.numRows
  let groups := (((rows.filter (· ∈ input)).map (rowKey groupColumns)).dedup).filter (.null ∉ ·)
  return {
    addressType := addressColumn.dataType
    groups := groups.map
      (groupRows rows (rowKey groupColumns) fun row => addressColumn.values.getD row .null) }

/-- `select_foreign_stack`: the groups of the input rows, and the rows they stand for. -/
def selectForeignStack (chunk : Chunk) (input : Finset Nat) (inputTable : String)
    (inputKey : List String) (outputTable : String) (outputKey : List String) :
    Except Error (Stack × List Nat) := do
  let inputBatch ← chunk.scanTable inputTable
  let inputRows ← selectRows inputBatch input
  let inputColumns ← keyColumns inputBatch inputKey
  let outputBatch ← chunk.scanTable outputTable
  let outputColumns ← keyColumns outputBatch outputKey
  -- the input columns are renamed to those of the output key, as many as there are
  let renamed := inputColumns.take outputKey.length
  ensure (outputKey.length ≤ renamed.length) (.text "key column is missing")
  let (groupColumns, addressColumn) ← splitKey outputColumns
  let inputGroup := renamed.dropLast
  checkJoinKeys groupColumns inputGroup
  let items := semiJoin (List.range outputBatch.numRows) (rowKey groupColumns)
    (inputRows.map (rowKey inputGroup))
  checkJoinKeys renamed outputColumns
  let parents := semiJoin items (rowKey outputColumns) (inputRows.map (rowKey renamed))
  let groups := (items.map (rowKey groupColumns)).dedup
  return (
    { addressType := addressColumn.dataType
      groups := groups.map
        (groupRows items (rowKey groupColumns) fun row => addressColumn.values.getD row .null) },
    parents)

/-- The types of addresses that can be compared. -/
def isAddressType (type : DataType) : Bool :=
  type = .list (.int ⟨true, .w32⟩) || type = .list (.int ⟨false, .w32⟩) ||
    type = .list (.int ⟨false, .w16⟩)

/-- Rows in the order of their addresses. -/
def sortRows (nodes : List StackRow) : List StackRow :=
  nodes.insertionSort fun a b => a.address ≤ b.address

def isParentAddress (parent child : Address) : Bool :=
  parent.length < child.length && parent = child.take parent.length

/-- The loop of `find_children_impl`, with the address of the last parent while its children are
being collected. -/
def findChildrenFrom (parents : Nat → Bool) (includeParent : Bool) :
    Option Address → List StackRow → List Nat
  | _, [] => []
  | current, node :: rest =>
    if current.any (isParentAddress · node.address) then
      node.row :: findChildrenFrom parents includeParent current rest
    else if parents node.row then
      (if includeParent then [node.row] else []) ++
        findChildrenFrom parents includeParent (some node.address) rest
    else findChildrenFrom parents includeParent none rest

def findChildren (stack : Stack) (parents : Nat → Bool) (includeParent : Bool) :
    Except Error (List Nat) := do
  ensure (isAddressType stack.addressType) (.text "invalid address type")
  return stack.groups.flatMap fun group =>
    findChildrenFrom parents includeParent none (sortRows group)

/-- The loop of `find_parents_impl`. The top of the stack comes first. -/
def findParentsFrom (children : Nat → Bool) : List StackRow → List StackRow → List Nat
  | _, [] => []
  | stack, node :: rest =>
    let stack := node :: stack.dropWhile fun top => !isParentAddress top.address node.address
    (if children node.row then stack.map (·.row) else []) ++ findParentsFrom children stack rest

def findParents (stack : Stack) (children : Nat → Bool) : Except Error (List Nat) := do
  ensure (isAddressType stack.addressType) (.text "invalid address type")
  return stack.groups.flatMap fun group => findParentsFrom children [] (sortRows group)

def evalChildren (chunk : Chunk) (input : Finset Nat) (table : String) (key : List String) :
    Except Error (List Nat) := do
  let stack ← selectStack chunk table key input
  findChildren stack (· ∈ input) false

def evalParents (chunk : Chunk) (input : Finset Nat) (table : String) (key : List String) :
    Except Error (List Nat) := do
  let stack ← selectStack chunk table key input
  findParents stack (· ∈ input)

def evalForeignChildren (chunk : Chunk) (input : Finset Nat) (inputTable : String)
    (inputKey : List String) (outputTable : String) (outputKey : List String) :
    Except Error (List Nat) := do
  let (stack, parentRows) ←
    selectForeignStack chunk input inputTable inputKey outputTable outputKey
  findChildren stack (· ∈ parentRows) true

def evalForeignParents (chunk : Chunk) (input : Finset Nat) (inputTable : String)
    (inputKey : List String) (outputTable : String) (outputKey : List String) :
    Except Error (List Nat) := do
  let (stack, childRows) ←
    selectForeignStack chunk input inputTable inputKey outputTable outputKey
  findParents stack (· ∈ childRows)

inductive Rel where
  | join (inputTable : String) (inputKey : List String) (outputTable : String)
      (outputKey : List String)
  | foreignChildren (inputTable : String) (inputKey : List String) (outputTable : String)
      (outputKey : List String)
  | foreignParents (inputTable : String) (inputKey : List String) (outputTable : String)
      (outputKey : List String)
  | children (table : String) (key : List String)
  | parents (table : String) (key : List String)
deriving DecidableEq

namespace Rel

def outputTable : Rel → String
  | .join _ _ output _ | .foreignChildren _ _ output _ | .foreignParents _ _ output _ => output
  | .children table _ | .parents table _ => table

def inputTable : Rel → String
  | .join input _ _ _ | .foreignChildren input _ _ _ | .foreignParents input _ _ _ => input
  | .children table _ | .parents table _ => table

def eval (chunk : Chunk) (input : Finset Nat) : Rel → Except Error (List Nat)
  | .join inputTable inputKey outputTable outputKey =>
    evalJoin chunk input inputTable inputKey outputTable outputKey
  | .foreignChildren inputTable inputKey outputTable outputKey =>
    evalForeignChildren chunk input inputTable inputKey outputTable outputKey
  | .foreignParents inputTable inputKey outputTable outputKey =>
    evalForeignParents chunk input inputTable inputKey outputTable outputKey
  | .children table key => evalChildren chunk input table key
  | .parents table key => evalParents chunk input table key

end Rel

/-! ## Rows of a tree -/

variable {nodes : List StackRow}

/-- Rows of the given groups, and no others. -/
theorem mem_sortRows {node : StackRow} : node ∈ sortRows nodes ↔ node ∈ nodes :=
  (perm_insertionSort _ nodes).mem_iff

theorem mem_of_findChildrenFrom {parents : Nat → Bool} {includeParent : Bool} {row : Nat} :
    ∀ {current : Option Address},
      row ∈ findChildrenFrom parents includeParent current nodes →
        ∃ node ∈ nodes, node.row = row := by
  induction nodes with
  | nil => simp [findChildrenFrom]
  | cons node rest ih =>
    intro current h
    have hr : ∀ {current : Option Address},
        row ∈ findChildrenFrom parents includeParent current rest →
          ∃ n ∈ node :: rest, n.row = row := by
      intro current h
      obtain ⟨n, hn, hrw⟩ := ih h
      exact ⟨n, mem_cons_of_mem node hn, hrw⟩
    rw [findChildrenFrom] at h
    split at h
    · rcases mem_cons.mp h with rfl | h
      · exact ⟨node, mem_cons_self, rfl⟩
      · exact hr h
    · split at h
      · rcases mem_append.mp h with h | h
        · cases includeParent with
          | false => cases h
          | true => exact ⟨node, mem_cons_self, (mem_singleton.mp h).symm⟩
        · exact hr h
      · exact hr h

variable {children : Nat → Bool}

theorem mem_of_findParentsFrom {row : Nat} :
    ∀ {stack : List StackRow}, row ∈ findParentsFrom children stack nodes →
      ∃ node ∈ stack ++ nodes, node.row = row := by
  induction nodes with
  | nil => simp [findParentsFrom]
  | cons node rest ih =>
    intro stack h
    have hk : ∀ n ∈ (node :: stack.dropWhile fun top =>
        !isParentAddress top.address node.address), n ∈ stack ++ node :: rest := by
      intro n hn
      rcases mem_cons.mp hn with rfl | hn
      · simp
      · exact mem_append_left _ ((dropWhile_sublist _).subset hn)
    rw [findParentsFrom] at h
    rcases mem_append.mp h with h | h
    · split at h
      · obtain ⟨n, hn, hr⟩ := mem_map.mp h
        exact ⟨n, hk n hn, hr⟩
      · cases h
    · obtain ⟨n, hn, hr⟩ := ih h
      refine ⟨n, ?_, hr⟩
      rcases mem_append.mp hn with hn | hn
      · exact hk n hn
      · exact mem_append_right _ (mem_cons_of_mem node hn)

/-- All rows of a stack are rows of a table with `n` rows. -/
def Stack.Below (stack : Stack) (n : Nat) : Prop :=
  ∀ group ∈ stack.groups, ∀ node ∈ group, node.row < n

variable {stack : Stack} {rows : List Nat}

theorem lt_of_mem_findChildren {n : Nat} (hb : stack.Below n) {parents : Nat → Bool}
    {includeParent : Bool} (h : findChildren stack parents includeParent = .ok rows) :
    ∀ row ∈ rows, row < n := by
  obtain ⟨_, _, h⟩ := bind_eq_ok.mp h
  cases h
  intro row hr
  obtain ⟨group, hg, hr⟩ := mem_flatMap.mp hr
  obtain ⟨node, hn, rfl⟩ := mem_of_findChildrenFrom hr
  exact hb group hg node (mem_sortRows.mp hn)

theorem lt_of_mem_findParents {n : Nat} (hb : stack.Below n)
    (h : findParents stack children = .ok rows) : ∀ row ∈ rows, row < n := by
  obtain ⟨_, _, h⟩ := bind_eq_ok.mp h
  cases h
  intro row hr
  obtain ⟨group, hg, hr⟩ := mem_flatMap.mp hr
  obtain ⟨node, hn, rfl⟩ := mem_of_findParentsFrom hr
  exact hb group hg node (mem_sortRows.mp (by simpa using hn))

theorem mem_semiJoin {key : Nat → List Value} {keys : List (List Value)} {row : Nat} :
    row ∈ semiJoin rows key keys ↔ row ∈ rows ∧ .null ∉ key row ∧ key row ∈ keys := by
  simp [semiJoin]

theorem below_groupRows {n : Nat} (hr : ∀ row ∈ rows, row < n) {groupKey : Nat → List Value}
    {address : Nat → Value} {addressType : DataType} {groups : List (List Value)} :
    Stack.Below ⟨addressType, groups.map (groupRows rows groupKey address)⟩ n := by
  intro group hg node hn
  obtain ⟨_, _, rfl⟩ := mem_map.mp hg
  obtain ⟨row, hrw, rfl⟩ := mem_map.mp hn
  exact hr row (mem_of_mem_filter hrw)

variable {chunk : Chunk} {input : Finset Nat} {batch : RecordBatch}

theorem selectStack_below {table : String} {key : List String}
    (hb : chunk.scanTable table = .ok batch)
    (h : selectStack chunk table key input = .ok stack) : stack.Below batch.numRows := by
  obtain ⟨items, hi, h⟩ := bind_eq_ok.mp h
  obtain rfl : items = batch := Except.ok.inj (hi.symm.trans hb)
  obtain ⟨_, _, h⟩ := bind_eq_ok.mp h
  obtain ⟨⟨groupColumns, addressColumn⟩, _, h⟩ := bind_eq_ok.mp h
  obtain ⟨_, _, h⟩ := bind_eq_ok.mp h
  cases h
  exact below_groupRows fun row hr => mem_range.mp hr

variable {inputKey outputKey : List String}

variable {inputTable outputTable : String}

theorem selectForeignStack_below (hb : chunk.scanTable outputTable = .ok batch)
    (h : selectForeignStack chunk input inputTable inputKey outputTable outputKey =
      .ok (stack, rows)) :
    stack.Below batch.numRows := by
  obtain ⟨_, _, h⟩ := bind_eq_ok.mp h
  obtain ⟨_, _, h⟩ := bind_eq_ok.mp h
  obtain ⟨_, _, h⟩ := bind_eq_ok.mp h
  obtain ⟨outputBatch, hf, h⟩ := bind_eq_ok.mp h
  obtain rfl : outputBatch = batch := Except.ok.inj (hf.symm.trans hb)
  obtain ⟨_, _, h⟩ := bind_eq_ok.mp h
  obtain ⟨_, _, h⟩ := bind_eq_ok.mp h
  obtain ⟨⟨groupColumns, addressColumn⟩, _, h⟩ := bind_eq_ok.mp h
  obtain ⟨_, _, h⟩ := bind_eq_ok.mp h
  obtain ⟨_, _, h⟩ := bind_eq_ok.mp h
  cases h
  exact below_groupRows fun row hr => mem_range.mp (mem_semiJoin.mp hr).1

/-- A relation selects rows of its output table. -/
theorem Rel.lt_of_mem_eval {rel : Rel} (hb : chunk.scanTable rel.outputTable = .ok batch)
    (h : rel.eval chunk input = .ok rows) : ∀ row ∈ rows, row < batch.numRows := by
  cases rel with
  | join =>
    simp only [Rel.eval, evalJoin] at h
    obtain ⟨_, _, h⟩ := bind_eq_ok.mp h
    obtain ⟨_, _, h⟩ := bind_eq_ok.mp h
    obtain ⟨_, _, h⟩ := bind_eq_ok.mp h
    obtain ⟨found, hf, h⟩ := bind_eq_ok.mp h
    obtain ⟨_, _, h⟩ := bind_eq_ok.mp h
    obtain ⟨_, _, h⟩ := bind_eq_ok.mp h
    cases h
    obtain rfl : found = batch := Except.ok.inj (hf.symm.trans hb)
    exact fun row hr => mem_range.mp (mem_semiJoin.mp hr).1
  | foreignChildren =>
    obtain ⟨⟨stack, parents⟩, hs, h⟩ := bind_eq_ok.mp h
    exact lt_of_mem_findChildren (selectForeignStack_below hb hs) h
  | foreignParents =>
    obtain ⟨⟨stack, children⟩, hs, h⟩ := bind_eq_ok.mp h
    exact lt_of_mem_findParents (selectForeignStack_below hb hs) h
  | children =>
    obtain ⟨stack, hs, h⟩ := bind_eq_ok.mp h
    exact lt_of_mem_findChildren (selectStack_below hb hs) h
  | parents =>
    obtain ⟨_, hs, h⟩ := bind_eq_ok.mp h
    exact lt_of_mem_findParents (selectStack_below hb hs) h

/-! ## Full input and full output -/

/-- Each row of a child table has the row of its parent. -/
def HasParents (parent : RecordBatch) (primaryKey : List String) (child : RecordBatch)
    (childKey : List String) : Prop :=
  ∀ row < child.numRows, ∃ parentColumns childColumns,
    keyColumns parent primaryKey = .ok parentColumns ∧
    keyColumns child childKey = .ok childColumns ∧ .null ∉ rowKey childColumns row ∧
      ∃ parentRow < parent.numRows, rowKey parentColumns parentRow = rowKey childColumns row

theorem selectRows_range :
    selectRows batch (Finset.range batch.numRows) = .ok (List.range batch.numRows) := by
  unfold selectRows
  rw [ensure_of_true (by simp)]
  simp only [bind, Except.bind, pure, Except.pure]
  refine congrArg _ (filter_eq_self.mpr fun row hr => ?_)
  simpa using hr

/-- From all parents a join reaches all children. -/
theorem evalJoin_full {input output : RecordBatch} (hi : chunk.scanTable inputTable = .ok input)
    (ho : chunk.scanTable outputTable = .ok output)
    (hp : HasParents input inputKey output outputKey)
    (h : evalJoin chunk (Finset.range input.numRows) inputTable inputKey outputTable outputKey =
      .ok rows) :
    ∀ row < output.numRows, row ∈ rows := by
  unfold evalJoin at h
  simp only [hi, ho] at h
  obtain ⟨_, hs, h⟩ := bind_eq_ok.mp h
  cases hs
  obtain ⟨_, hr, h⟩ := bind_eq_ok.mp h
  rw [selectRows_range] at hr
  cases hr
  obtain ⟨_, hiC, h⟩ := bind_eq_ok.mp h
  obtain ⟨_, hs, h⟩ := bind_eq_ok.mp h
  cases hs
  obtain ⟨_, hoC, h⟩ := bind_eq_ok.mp h
  obtain ⟨_, _, h⟩ := bind_eq_ok.mp h
  cases h
  intro row hrw
  obtain ⟨_, _, hpC, hcC, hk, parentRow, hlt, hpr⟩ := hp row hrw
  cases hpC.symm.trans hiC
  cases hcC.symm.trans hoC
  refine mem_semiJoin.mpr ⟨mem_range.mpr hrw, hk, ?_⟩
  exact mem_map.mpr ⟨parentRow, mem_range.mpr hlt, hpr⟩

end Query
