import SafeStake.StateInvariant

/-! # The queue of contract commands

The contract task turns every log it handles into a `ContractCommand` and stores its JSON
in the table `contract_commands` of `db.rs`, one row per command: an `AUTOINCREMENT` id,
the validator or initiator the command is for (`validator_or_initiator_id`), a
`sequence_num` that `increase_va_sequence` draws from that key's counter in
`contract_cmd_sequence`, the JSON, and an `update_time` that a trigger sets to
`CURRENT_TIMESTAMP` whenever the row is updated.  Every twelve seconds
`Node::process_contract_command` asks `get_contract_command` for the row of least
`sequence_num` among the rows of the key whose row was updated longest ago, runs its
command, and then deletes the row on success or, on failure, calls
`updatetime_contract_command` so that the row waits for its turn again.  All of it goes
through the `Database` wrappers, which send a `DbCommand` to the database task.

Per key the sequence numbers grow along the rows (`CommandDb.Sequenced`) on every run that
inserts fewer than `2 ^ 32` commands for the key (`CommandLoop.run_new_sequenced`); at
`u32::MAX` the counter wraps to 0.  The row `get_contract_command` hands out has the least
sequence number of its key, so it is the key's oldest row (`getContractCommand_least`).  But
`Database::updatetime_contract_command` sends `DeleteContractCommand`: a command that fails
is deleted, the key's next command runs in its place, and the failed one never runs again
(`CommandLoop.run_not_started`).

`CURRENT_TIMESTAMP` has a resolution of one second, so rows often share an
`update_time`; SQLite returns such ties of `order by update_time asc limit 1` in no fixed
order, and the model takes them in row order (`List.argmin`).  Only which key is served
next depends on it.  The JSON of a command is left as its text: the contract task writes it
with `serde_json::to_string`, which `serde_json::from_str` reads back.
-/

namespace SafeStake.Contract

/-- Setting the value of one key of an association list leaves every other key's value, and
replaces the key's own where it has one. -/
theorem lookup_map_update (l : List (UInt64 × UInt32)) (key k : UInt64) (v : UInt32) :
    (l.map fun p => if p.1 = key then (p.1, v) else p).lookup k =
      if k = key then (l.lookup k).map fun _ => v else l.lookup k := by
  induction l with
  | nil => split <;> rfl
  | cons p l ih =>
    obtain ⟨k', v'⟩ := p
    by_cases hk : k = k'
    · -- the head is the key looked up
      subst hk
      by_cases hkey : k = key <;> simp [hkey]
    · have hne : (k == k') = false := beq_false_of_ne hk
      by_cases hkey : k' = key
      · subst hkey
        simp [List.lookup_cons, hne, hk, ih]
      · simp [List.lookup_cons, hne, hkey, ih]

/-- In a list ordered by `R`, an element that no element of property `P` precedes in `R` is
the first of property `P` at its place. -/
theorem exists_first_of_pairwise {α : Type} {R : α → α → Prop} {P : α → Prop} {l : List α}
    {a : α} (hl : l.Pairwise R) (ha : a ∈ l) (hmin : ∀ b ∈ l, P b → ¬ R b a) :
    ∃ l₁ l₂, l = l₁ ++ a :: l₂ ∧ ∀ b ∈ l₁, ¬ P b := by
  obtain ⟨l₁, l₂, rfl⟩ := List.append_of_mem ha
  refine ⟨l₁, l₂, rfl, fun b hb hP => hmin b (List.mem_append_left _ hb) hP ?_⟩
  exact (List.pairwise_append.mp hl).2.2 b hb a List.mem_cons_self

/-- A row of `contract_commands`. -/
structure CommandRow where
  id : Nat
  validatorOrInitiatorId : UInt64
  sequenceNum : UInt32
  command : String
  updateTime : Nat
deriving DecidableEq, Repr

/-- The two tables of the queue, and the largest id `AUTOINCREMENT` has handed out (its
entry in `sqlite_sequence`): ids are never handed out twice. -/
structure CommandDb where
  contractCommands : List CommandRow
  contractCmdSequence : List (UInt64 × UInt32)
  lastId : Nat
deriving DecidableEq, Repr

namespace CommandDb

/-- The tables as `Database::new` creates them. -/
def empty : CommandDb := ⟨[], [], 0⟩

/-- `increase_va_sequence`: the key's counter, 0 if it has none; a 0 is inserted as 1 (the
`insert` fails on the primary key where a 0 is already stored), any other value goes up by
one; the new value is returned, in `u32`. -/
def increaseVaSequence (db : CommandDb) (key : UInt64) : CommandDb × UInt32 :=
  let sequenceNum := (db.contractCmdSequence.lookup key).getD 0
  if sequenceNum = 0 then
    if (db.contractCmdSequence.lookup key).isSome then (db, sequenceNum + 1)
    else ({ db with contractCmdSequence := db.contractCmdSequence ++ [(key, 1)] }, sequenceNum + 1)
  else
    ({ db with contractCmdSequence := db.contractCmdSequence.map fun p =>
        if p.1 = key then (p.1, sequenceNum + 1) else p }, sequenceNum + 1)

/-- `insert_contract_command`: a row with the next id, the key's next sequence number and
the current time. -/
def insertContractCommand (db : CommandDb) (key : UInt64) (command : String) (now : Nat) :
    CommandDb :=
  let (db, sequenceNum) := db.increaseVaSequence key
  { db with
    contractCommands := db.contractCommands ++ [⟨db.lastId + 1, key, sequenceNum, command, now⟩]
    lastId := db.lastId + 1 }

/-- `delete_contract_command`. -/
def deleteContractCommand (db : CommandDb) (id : UInt32) : CommandDb :=
  { db with contractCommands := db.contractCommands.filter fun r => r.id ≠ id.toNat }

/-- `updatetime_contract_command`: `update contract_commands set id = ?1 where id = ?1`,
after which the trigger sets the row's `update_time` to the current time. -/
def updatetimeContractCommand (db : CommandDb) (id : UInt32) (now : Nat) : CommandDb :=
  { db with contractCommands := db.contractCommands.map fun r =>
      if r.id = id.toNat then { r with updateTime := now } else r }

/-- `get_contract_command`: the key of the row updated longest ago, then that key's row of
least `sequence_num`, which the same `update` as `updatetime_contract_command` touches.  An
empty table answers `("", 0)`; a row id beyond `u32` fails `row.get(0).unwrap()` (`none`). -/
def getContractCommand (db : CommandDb) (now : Nat) : Option (CommandDb × String × UInt32) :=
  match db.contractCommands.argmin (·.updateTime) with
  | none => some (db, "", 0)
  | some oldest =>
    match (db.contractCommands.filter fun r =>
        r.validatorOrInitiatorId = oldest.validatorOrInitiatorId).argmin (·.sequenceNum.toNat) with
    | none => some (db, "", 0)
    | some row =>
      if row.id < 2 ^ 32 then
        some (db.updatetimeContractCommand row.id.toUInt32 now, row.command, row.id.toUInt32)
      else none

end CommandDb

/-- The `DbCommand`s of the queue. -/
inductive DbCommand where
  | insertContractCommand (validatorId : UInt64) (command : String)
  | getContractCommand
  | deleteContractCommand (id : UInt32)
  | updatetimeContractCommand (id : UInt32)
deriving DecidableEq, Repr

/-- The database task's `match db_command`, at the time `CURRENT_TIMESTAMP` reads: the tables
after it, and what a `GetContractCommand` sends back; `none` where the task panics. -/
def CommandDb.handle (db : CommandDb) (now : Nat) :
    DbCommand → Option (CommandDb × Option (String × UInt32))
  | .insertContractCommand key command => some (db.insertContractCommand key command now, none)
  | .getContractCommand => (db.getContractCommand now).map fun r => (r.1, some r.2)
  | .deleteContractCommand id => some (db.deleteContractCommand id, none)
  | .updatetimeContractCommand id => some (db.updatetimeContractCommand id now, none)

namespace Database

/-- `Database::insert_contract_command`. -/
def insertContractCommand (key : UInt64) (command : String) : DbCommand :=
  .insertContractCommand key command

/-- `Database::get_contract_command`. -/
def getContractCommand : DbCommand := .getContractCommand

/-- `Database::delete_contract_command`. -/
def deleteContractCommand (id : UInt32) : DbCommand := .deleteContractCommand id

/-- `Database::updatetime_contract_command`: it sends `DeleteContractCommand`. -/
def updatetimeContractCommand (id : UInt32) : DbCommand := .deleteContractCommand id

end Database

/-- The loop of `Node::process_contract_command` with the tables it works on: the command it
has fetched and is running, with its id, and every command it has started, oldest first. -/
structure CommandLoop where
  db : CommandDb
  running : Option (UInt32 × String)
  started : List (UInt32 × String)
deriving DecidableEq, Repr

/-- What happens next: the contract task inserts a command, the loop's interval ticks, or
the command the loop runs ends with `Ok` (`true`) or `Err`.  Which of `add_validator`,
`remove_validator`, ... the command calls, and whether it fails, is up to the node and the
network. -/
inductive CommandEvent where
  | insert (validatorId : UInt64) (command : String)
  | tick
  | finish (ok : Bool)
deriving DecidableEq, Repr

namespace CommandLoop

/-- The loop before any command. -/
def new : CommandLoop := ⟨CommandDb.empty, none, []⟩

/-- One event at the time `now`; `none` once the database task has panicked.  The loop
fetches only between two commands, and an id of 0 means the table was empty. -/
def step (s : CommandLoop) (now : Nat) : CommandEvent → Option CommandLoop
  | .insert key command =>
    (s.db.handle now (Database.insertContractCommand key command)).map fun r => { s with db := r.1 }
  | .tick =>
    match s.running with
    | some _ => some s
    | none =>
      (s.db.handle now Database.getContractCommand).map fun r =>
        match r.2 with
        | some (command, id) =>
          if id = 0 then { s with db := r.1 }
          else { s with db := r.1, running := some (id, command), started := s.started ++ [(id, command)] }
        | none => { s with db := r.1 }
  | .finish ok =>
    match s.running with
    | none => some s
    | some (id, _) =>
      (s.db.handle now
          (if ok then Database.deleteContractCommand id else Database.updatetimeContractCommand id)).map
        fun r => { s with db := r.1, running := none }

/-- The loop over timed events; `none` once the database task has panicked. -/
def run : List (Nat × CommandEvent) → CommandLoop → Option CommandLoop
  | [], s => some s
  | e :: es, s => (s.step e.1 e.2).bind (run es)

end CommandLoop

/-! ## What the database task does -/

namespace CommandDb

/-- `increase_va_sequence` touches only the counters. -/
theorem increaseVaSequence_commands (db : CommandDb) (key : UInt64) :
    (db.increaseVaSequence key).1.contractCommands = db.contractCommands ∧
      (db.increaseVaSequence key).1.lastId = db.lastId := by
  unfold increaseVaSequence
  dsimp only
  split
  · split <;> exact ⟨rfl, rfl⟩
  · exact ⟨rfl, rfl⟩

theorem insertContractCommand_commands (db : CommandDb) (key : UInt64) (command : String)
    (now : Nat) :
    (db.insertContractCommand key command now).contractCommands =
        db.contractCommands ++ [⟨db.lastId + 1, key, (db.increaseVaSequence key).2, command, now⟩] ∧
      (db.insertContractCommand key command now).lastId = db.lastId + 1 := by
  obtain ⟨hcommands, hlast⟩ := increaseVaSequence_commands db key
  unfold insertContractCommand
  rw [← hcommands, ← hlast]
  exact ⟨rfl, rfl⟩

theorem insertContractCommand_sequence (db : CommandDb) (key : UInt64) (command : String)
    (now : Nat) :
    (db.insertContractCommand key command now).contractCmdSequence =
      (db.increaseVaSequence key).1.contractCmdSequence :=
  rfl

/-- The update of `updatetime_contract_command` touches neither the key nor the sequence
number of a row, nor its id. -/
theorem updatetimeContractCommand_row (r : CommandRow) (id : UInt32) (now : Nat) :
    (if r.id = id.toNat then { r with updateTime := now } else r).validatorOrInitiatorId =
        r.validatorOrInitiatorId ∧
      (if r.id = id.toNat then { r with updateTime := now } else r).sequenceNum = r.sequenceNum ∧
      (if r.id = id.toNat then { r with updateTime := now } else r).id = r.id := by
  split <;> exact ⟨rfl, rfl, rfl⟩

/-- **What `get_contract_command` hands out**: nothing, or a row of the table, whose key
has a row of least `update_time`, and whose `sequence_num` is the least of its key's rows;
the row's `update_time` becomes the current time. -/
theorem getContractCommand_eq_some {db : CommandDb} {now : Nat} {db' : CommandDb}
    {command : String} {id : UInt32} (h : db.getContractCommand now = some (db', command, id)) :
    db' = db ∧ command = "" ∧ id = 0 ∨
      ∃ row ∈ db.contractCommands, row.id < 2 ^ 32 ∧ id = row.id.toUInt32 ∧
        command = row.command ∧ db' = db.updatetimeContractCommand id now ∧
        (∃ oldest ∈ db.contractCommands,
          oldest.validatorOrInitiatorId = row.validatorOrInitiatorId ∧
          ∀ r ∈ db.contractCommands, oldest.updateTime ≤ r.updateTime) ∧
        ∀ r ∈ db.contractCommands, r.validatorOrInitiatorId = row.validatorOrInitiatorId →
          row.sequenceNum.toNat ≤ r.sequenceNum.toNat := by
  unfold getContractCommand at h
  split at h
  · cases h
    exact .inl ⟨rfl, rfl, rfl⟩
  · rename_i oldest holdest
    split at h
    · cases h
      exact .inl ⟨rfl, rfl, rfl⟩
    · rename_i row hrow
      split at h
      · rename_i hlt
        cases h
        have hmem := List.argmin_mem hrow
        rw [List.mem_filter] at hmem
        refine .inr ⟨row, hmem.1, hlt, rfl, rfl, rfl,
          ⟨oldest, List.argmin_mem holdest, (of_decide_eq_true hmem.2).symm,
            fun r hr => List.le_of_mem_argmin hr holdest⟩, fun r hr hkey => ?_⟩
        -- the least sequence number among the rows of the oldest row's key
        have hr' : r ∈ db.contractCommands.filter fun r =>
            r.validatorOrInitiatorId = oldest.validatorOrInitiatorId :=
          List.mem_filter.mpr ⟨hr, by rw [hkey]; exact hmem.2⟩
        have hle := List.le_of_mem_argmin hr' hrow
        exact hle
      · cases h

/-! ### Sequence numbers -/

/-- The counter `contract_cmd_sequence` holds for a key, 0 where it holds none. -/
def counter (db : CommandDb) (key : UInt64) : UInt32 := (db.contractCmdSequence.lookup key).getD 0

/-- Per key, the sequence numbers of the rows grow in the order the rows were inserted and
stay at or below the key's counter, and no stored counter is 0. -/
structure Sequenced (db : CommandDb) : Prop where
  ordered : db.contractCommands.Pairwise fun r₁ r₂ =>
    r₁.validatorOrInitiatorId = r₂.validatorOrInitiatorId → r₁.sequenceNum < r₂.sequenceNum
  below : ∀ r ∈ db.contractCommands, r.sequenceNum ≤ db.counter r.validatorOrInitiatorId
  stored : ∀ k v, db.contractCmdSequence.lookup k = some v → v ≠ 0

theorem sequenced_empty : empty.Sequenced :=
  ⟨List.Pairwise.nil, fun _ hr => (nomatch hr), fun _ _ hv => (nomatch hv)⟩

/-- `increase_va_sequence` returns the key's counter plus one, in `u32`, and stores it as the
key's counter; no other key's counter moves. -/
theorem increaseVaSequence_counter {db : CommandDb} (h : db.Sequenced) (key : UInt64) :
    (db.increaseVaSequence key).2 = db.counter key + 1 ∧
      ∀ k, (db.increaseVaSequence key).1.contractCmdSequence.lookup k =
        if k = key then some (db.counter key + 1) else db.contractCmdSequence.lookup k := by
  unfold increaseVaSequence counter
  cases hlook : db.contractCmdSequence.lookup key with
  | none =>
    -- a key without a counter gets the counter 1, behind the others
    refine ⟨rfl, fun k => ?_⟩
    simp only [Option.getD_none, if_true, Option.isSome_none, Bool.false_eq_true, if_false]
    rw [List.lookup_append]
    by_cases hk : k = key
    · subst hk
      simp [hlook]
    · simp [hk, List.lookup_cons, beq_false_of_ne hk]
  | some v =>
    -- a stored counter is never 0, so it goes up by one in place
    have hv : v ≠ 0 := h.stored key v hlook
    simp only [Option.getD_some, if_neg hv, true_and]
    intro k
    rw [lookup_map_update]
    by_cases hk : k = key
    · subst hk
      simp [hlook]
    · simp [hk]

/-- Below `u32::MAX` the counter goes up by one without wrapping, past every value at or
below it. -/
theorem lt_succ_of_lt_max {a b : UInt32} (hmax : a < 4294967295) (hb : b ≤ a) :
    b < a + 1 ∧ a + 1 ≠ 0 := by
  grind

/-- The counters after an insert: the key's has gone up by one, the others stay. -/
theorem counter_insertContractCommand {db : CommandDb} (h : db.Sequenced) (key : UInt64)
    (command : String) (now : Nat) (k : UInt64) :
    (db.insertContractCommand key command now).counter k =
      if k = key then db.counter key + 1 else db.counter k := by
  unfold counter
  rw [insertContractCommand_sequence, (increaseVaSequence_counter h key).2 k]
  split <;> rfl

/-- Below `u32::MAX`, an insert keeps the sequence numbers in order: the new row's is its
key's counter plus one, above every row of its key. -/
theorem Sequenced.insertContractCommand {db : CommandDb} (h : db.Sequenced) (key : UInt64)
    (command : String) (now : Nat) (hmax : db.counter key < 4294967295) :
    (db.insertContractCommand key command now).Sequenced := by
  obtain ⟨hseq, hlookup⟩ := increaseVaSequence_counter h key
  obtain ⟨hcommands, -⟩ := insertContractCommand_commands db key command now
  have hsucc := lt_succ_of_lt_max hmax (UInt32.le_refl _)
  have hgrow : ∀ k, db.counter k ≤ (db.insertContractCommand key command now).counter k := by
    intro k
    rw [counter_insertContractCommand h]
    split
    · rename_i hk
      subst hk
      exact UInt32.le_of_lt hsucc.1
    · exact UInt32.le_refl _
  refine ⟨?_, ?_, ?_⟩
  · rw [hcommands, hseq, List.pairwise_append]
    refine ⟨h.ordered, List.pairwise_singleton _ _, fun r hr new hnew hkey => ?_⟩
    rw [List.mem_singleton] at hnew
    subst hnew
    -- an older row of the key is at or below the counter, the new one above it
    have hle : r.sequenceNum ≤ db.counter key := by
      have hbelow := h.below r hr
      rw [show r.validatorOrInitiatorId = key from hkey] at hbelow
      exact hbelow
    exact (lt_succ_of_lt_max hmax hle).1
  · intro r hr
    rw [hcommands, List.mem_append, List.mem_singleton] at hr
    rcases hr with hr | rfl
    · exact UInt32.le_trans (h.below r hr) (hgrow _)
    · rw [counter_insertContractCommand h, if_pos rfl, hseq]
      exact UInt32.le_refl _
  · intro k v hv
    rw [insertContractCommand_sequence, hlookup k] at hv
    split at hv
    · cases hv
      exact hsucc.2
    · exact h.stored k v hv

/-- At `u32::MAX` the counter wraps: the next row of the key has the sequence number 0. -/
example :
    (insertContractCommand ⟨[⟨1, 7, 4294967295, "A", 1⟩], [(7, 4294967295)], 1⟩ 7 "B" 2).contractCommands.map
      CommandRow.sequenceNum = [4294967295, 0] := by
  decide

theorem Sequenced.deleteContractCommand {db : CommandDb} (h : db.Sequenced) (id : UInt32) :
    (db.deleteContractCommand id).Sequenced :=
  ⟨h.ordered.filter _, fun r hr => h.below r (List.mem_of_mem_filter hr), h.stored⟩

theorem Sequenced.updatetimeContractCommand {db : CommandDb} (h : db.Sequenced) (id : UInt32)
    (now : Nat) : (db.updatetimeContractCommand id now).Sequenced := by
  refine ⟨?_, ?_, h.stored⟩
  · refine List.pairwise_map.mpr (h.ordered.imp fun {r₁ r₂} hlt hkey => ?_)
    obtain ⟨hkey₁, hseq₁, -⟩ := updatetimeContractCommand_row r₁ id now
    obtain ⟨hkey₂, hseq₂, -⟩ := updatetimeContractCommand_row r₂ id now
    rw [hkey₁, hkey₂] at hkey
    rw [hseq₁, hseq₂]
    exact hlt hkey
  · intro r hr
    obtain ⟨r', hr', rfl⟩ := List.mem_map.mp hr
    obtain ⟨hkey, hseq, -⟩ := updatetimeContractCommand_row r' id now
    rw [hkey, hseq]
    exact h.below r' hr'

theorem Sequenced.getContractCommand {db : CommandDb} (h : db.Sequenced) {now : Nat}
    {db' : CommandDb} {command : String} {id : UInt32}
    (hget : db.getContractCommand now = some (db', command, id)) : db'.Sequenced := by
  rcases getContractCommand_eq_some hget with ⟨rfl, -, -⟩ | ⟨-, -, -, -, -, rfl, -⟩
  · exact h
  · exact h.updatetimeContractCommand _ now

/-- **The table hands out a key's commands in the order they were inserted**: from a
sequenced table, the row `get_contract_command` hands out is the first of its key's rows. -/
theorem getContractCommand_least {db : CommandDb} (h : db.Sequenced) {now : Nat}
    {db' : CommandDb} {command : String} {id : UInt32}
    (hget : db.getContractCommand now = some (db', command, id)) (hid : id ≠ 0) :
    ∃ pre row suf, db.contractCommands = pre ++ row :: suf ∧ row.id.toUInt32 = id ∧
      row.command = command ∧
      ∀ r ∈ pre, r.validatorOrInitiatorId ≠ row.validatorOrInitiatorId := by
  rcases getContractCommand_eq_some hget with ⟨-, -, hzero⟩ | ⟨row, hrow, -, rfl, rfl, -, -, hleast⟩
  · exact absurd hzero hid
  · -- a row of the key inserted before would have a smaller sequence number
    obtain ⟨pre, suf, hsplit, hpre⟩ := exists_first_of_pairwise
      (P := fun r => r.validatorOrInitiatorId = row.validatorOrInitiatorId) h.ordered hrow
      (fun r hr hkey hlt => by
        have hle := hleast r hr hkey
        have hlt' := UInt32.lt_iff_toNat_lt.mp (hlt hkey)
        omega)
    exact ⟨pre, row, suf, hsplit, rfl, rfl, hpre⟩

/-! ### Ids are handed out once -/

/-- Every row's id is one that `AUTOINCREMENT` has handed out. -/
def IdsBelow (db : CommandDb) : Prop := ∀ r ∈ db.contractCommands, r.id ≤ db.lastId

/-- The id has been handed out and no row has it: no row ever will again. -/
def Gone (db : CommandDb) (id : UInt32) : Prop :=
  id.toNat ≤ db.lastId ∧ ∀ r ∈ db.contractCommands, r.id ≠ id.toNat

/-- Every row of `db'` has the id of a row of `db`, and `AUTOINCREMENT` is where it was. -/
def IdsFrom (db db' : CommandDb) : Prop :=
  (∀ r ∈ db'.contractCommands, ∃ r' ∈ db.contractCommands, r'.id = r.id) ∧ db'.lastId = db.lastId

theorem idsFrom_deleteContractCommand (db : CommandDb) (id : UInt32) :
    IdsFrom db (db.deleteContractCommand id) :=
  ⟨fun r hr => ⟨r, List.mem_of_mem_filter hr, rfl⟩, rfl⟩

theorem idsFrom_updatetimeContractCommand (db : CommandDb) (id : UInt32) (now : Nat) :
    IdsFrom db (db.updatetimeContractCommand id now) := by
  refine ⟨fun r hr => ?_, rfl⟩
  obtain ⟨r', hr', rfl⟩ := List.mem_map.mp hr
  exact ⟨r', hr', (updatetimeContractCommand_row r' id now).2.2.symm⟩

theorem IdsBelow.of_idsFrom {db db' : CommandDb} (h : db.IdsBelow) (hfrom : IdsFrom db db') :
    db'.IdsBelow := by
  intro r hr
  obtain ⟨r', hr', hid⟩ := hfrom.1 r hr
  rw [hfrom.2, ← hid]
  exact h r' hr'

theorem Gone.of_idsFrom {db db' : CommandDb} {id : UInt32} (h : db.Gone id)
    (hfrom : IdsFrom db db') : db'.Gone id := by
  refine ⟨hfrom.2 ▸ h.1, fun r hr => ?_⟩
  obtain ⟨r', hr', hid⟩ := hfrom.1 r hr
  exact hid ▸ h.2 r' hr'

/-- A deleted id that has been handed out is gone. -/
theorem deleteContractCommand_gone {db : CommandDb} {id : UInt32} (h : id.toNat ≤ db.lastId) :
    (db.deleteContractCommand id).Gone id := by
  refine ⟨h, fun r hr => ?_⟩
  simp only [deleteContractCommand, List.mem_filter, decide_eq_true_eq] at hr
  exact hr.2

theorem IdsBelow.insertContractCommand {db : CommandDb} (h : db.IdsBelow) (key : UInt64)
    (command : String) (now : Nat) : (db.insertContractCommand key command now).IdsBelow := by
  obtain ⟨hcommands, hlast⟩ := insertContractCommand_commands db key command now
  intro r hr
  rw [hcommands, List.mem_append, List.mem_singleton] at hr
  rw [hlast]
  rcases hr with hr | rfl
  · exact Nat.le_succ_of_le (h r hr)
  · exact Nat.le_refl _

theorem Gone.insertContractCommand {db : CommandDb} {id : UInt32} (h : db.Gone id)
    (key : UInt64) (command : String) (now : Nat) :
    (db.insertContractCommand key command now).Gone id := by
  obtain ⟨hcommands, hlast⟩ := insertContractCommand_commands db key command now
  refine ⟨by rw [hlast]; exact Nat.le_succ_of_le h.1, fun r hr => ?_⟩
  rw [hcommands, List.mem_append, List.mem_singleton] at hr
  rcases hr with hr | rfl
  · exact h.2 r hr
  · -- the new row's id is above every id handed out before
    exact fun heq => by have := h.1; simp only at heq; omega

/-- The id `get_contract_command` hands out is that of a row, or 0. -/
theorem getContractCommand_ids {db : CommandDb} {now : Nat} {db' : CommandDb}
    {command : String} {id : UInt32} (hget : db.getContractCommand now = some (db', command, id)) :
    IdsFrom db db' ∧ (id = 0 ∨ ∃ r ∈ db.contractCommands, r.id = id.toNat) := by
  rcases getContractCommand_eq_some hget with ⟨rfl, -, rfl⟩ | ⟨row, hrow, hlt, rfl, -, rfl, -⟩
  · exact ⟨⟨fun r hr => ⟨r, hr, rfl⟩, rfl⟩, .inl rfl⟩
  · refine ⟨idsFrom_updatetimeContractCommand _ _ now, .inr ⟨row, hrow, ?_⟩⟩
    rw [Nat.toUInt32, UInt32.toNat_ofNat_of_lt' hlt]

/-- **What every command of the database task does to the ids**: an insert adds the row of
the next id; any other command keeps only ids of rows it had, and answers with a row's id or
with 0. -/
theorem handle_ids {db : CommandDb} {now : Nat} {cmd : DbCommand}
    {r : CommandDb × Option (String × UInt32)} (hh : db.handle now cmd = some r) :
    (∃ key command, r = (db.insertContractCommand key command now, none)) ∨
      IdsFrom db r.1 ∧ ∀ p ∈ r.2, p.2 = 0 ∨ ∃ row ∈ db.contractCommands, row.id = p.2.toNat := by
  cases cmd with
  | insertContractCommand key command =>
    cases hh
    exact .inl ⟨key, command, rfl⟩
  | getContractCommand =>
    obtain ⟨⟨db', command, id⟩, hget, rfl⟩ := Option.map_eq_some_iff.mp hh
    obtain ⟨hfrom, hid⟩ := getContractCommand_ids hget
    refine .inr ⟨hfrom, fun p hp => ?_⟩
    cases hp
    exact hid
  | deleteContractCommand id =>
    cases hh
    exact .inr ⟨idsFrom_deleteContractCommand db id, fun _ hp => nomatch hp⟩
  | updatetimeContractCommand id =>
    cases hh
    exact .inr ⟨idsFrom_updatetimeContractCommand db id now, fun _ hp => nomatch hp⟩

/-- Every command of the database task keeps the ids handed out, hands out no new one but by
inserting, and answers only with ids handed out. -/
theorem IdsBelow.handle {db : CommandDb} (h : db.IdsBelow) {now : Nat} {cmd : DbCommand}
    {r : CommandDb × Option (String × UInt32)} (hh : db.handle now cmd = some r) :
    r.1.IdsBelow ∧ db.lastId ≤ r.1.lastId ∧ ∀ p ∈ r.2, p.2.toNat ≤ r.1.lastId := by
  rcases handle_ids hh with ⟨key, command, rfl⟩ | ⟨hfrom, hreply⟩
  · exact ⟨h.insertContractCommand key command now,
      (insertContractCommand_commands db key command now).2 ▸ Nat.le_succ _, fun _ hp => nomatch hp⟩
  · refine ⟨h.of_idsFrom hfrom, hfrom.2.ge, fun p hp => ?_⟩
    rw [hfrom.2]
    rcases hreply p hp with hid | ⟨row, hrow, hid⟩
    · rw [hid]
      exact Nat.zero_le _
    · exact hid ▸ h row hrow

/-- Every command of the database task keeps a gone id gone, and never answers with it. -/
theorem Gone.handle {db : CommandDb} {id : UInt32} (h : db.Gone id) {now : Nat}
    {cmd : DbCommand} {r : CommandDb × Option (String × UInt32)}
    (hh : db.handle now cmd = some r) : r.1.Gone id ∧ ∀ p ∈ r.2, p.2 = 0 ∨ p.2 ≠ id := by
  rcases handle_ids hh with ⟨key, command, rfl⟩ | ⟨hfrom, hreply⟩
  · exact ⟨h.insertContractCommand key command now, fun _ hp => nomatch hp⟩
  · refine ⟨h.of_idsFrom hfrom, fun p hp => ?_⟩
    rcases hreply p hp with hid | ⟨row, hrow, hid⟩
    · exact .inl hid
    · exact .inr fun heq => h.2 row hrow (heq ▸ hid)

end CommandDb

/-! ## The loop -/

/-- Whether the event inserts a command for the key. -/
def CommandEvent.insertsFor (key : UInt64) : CommandEvent → Bool
  | .insert k _ => k == key
  | _ => false

namespace CommandLoop
open CommandDb

/-- The number of commands the events insert for the key. -/
def insertCount (key : UInt64) (es : List (Nat × CommandEvent)) : Nat :=
  es.countP fun e => e.2.insertsFor key

/-- Every row's id, and the running command's, has been handed out. -/
def Wf (s : CommandLoop) : Prop :=
  s.db.IdsBelow ∧ ∀ p ∈ s.running, p.1.toNat ≤ s.db.lastId

theorem wf_new : new.Wf := ⟨fun _ hr => (nomatch hr), fun _ hp => (nomatch hp)⟩

/-- **What one event does to the loop**: nothing, or one command of the database task, whose
tables the loop keeps.  The command running stays, or a finish stops it, or a fetch starts
the command the table answers with, unless its id is 0. -/
theorem step_eq_some {s s' : CommandLoop} {now : Nat} {e : CommandEvent}
    (hstep : s.step now e = some s') :
    s' = s ∨ ∃ cmd r, s.db.handle now cmd = some r ∧ s'.db = r.1 ∧
      (s'.running = s.running ∧ s'.started = s.started ∨
        s'.running = none ∧ s'.started = s.started ∨
        ∃ command id, r.2 = some (command, id) ∧ id ≠ 0 ∧ s'.running = some (id, command) ∧
          s'.started = s.started ++ [(id, command)]) := by
  cases e with
  | insert key command =>
    rw [CommandLoop.step] at hstep
    obtain ⟨r, hr, rfl⟩ := Option.map_eq_some_iff.mp hstep
    exact .inr ⟨_, r, hr, rfl, .inl ⟨rfl, rfl⟩⟩
  | tick =>
    rw [CommandLoop.step] at hstep
    split at hstep
    · cases hstep
      exact .inl rfl
    · obtain ⟨r, hr, rfl⟩ := Option.map_eq_some_iff.mp hstep
      refine .inr ⟨_, r, hr, ?_⟩
      -- the loop starts what the table answered, unless the answer is the empty table's
      split
      · rename_i command id hid
        split
        · exact ⟨rfl, .inl ⟨rfl, rfl⟩⟩
        · rename_i hzero
          exact ⟨rfl, .inr (.inr ⟨command, id, hid, hzero, rfl, rfl⟩)⟩
      · exact ⟨rfl, .inl ⟨rfl, rfl⟩⟩
  | finish ok =>
    rw [CommandLoop.step] at hstep
    split at hstep
    · cases hstep
      exact .inl rfl
    · obtain ⟨r, hr, rfl⟩ := Option.map_eq_some_iff.mp hstep
      exact .inr ⟨_, r, hr, rfl, .inr (.inl ⟨rfl, rfl⟩)⟩

/-- Every event keeps the loop well formed. -/
theorem Wf.step {s s' : CommandLoop} {now : Nat} {e : CommandEvent} (h : s.Wf)
    (hstep : s.step now e = some s') : s'.Wf := by
  rcases step_eq_some hstep with rfl | ⟨cmd, r, hr, hdb, hrunning⟩
  · exact h
  · obtain ⟨hids, hlast, hreply⟩ := h.1.handle hr
    refine ⟨hdb ▸ hids, fun p hp => ?_⟩
    rw [hdb]
    -- the running command's id is an old one, or the one the table answered with
    rcases hrunning with ⟨hsame, -⟩ | ⟨hnone, -⟩ | ⟨command, id, hid, -, hstart, -⟩
    · exact Nat.le_trans (h.2 p (hsame ▸ hp)) hlast
    · rw [hnone] at hp
      cases hp
    · rw [hstart] at hp
      cases hp
      exact hreply _ hid

theorem Wf.run {s : CommandLoop} (h : s.Wf) :
    ∀ {es : List (Nat × CommandEvent)} {s' : CommandLoop}, run es s = some s' → s'.Wf
  | [], _, hrun => by
    cases hrun
    exact h
  | e :: es, _, hrun => by
    obtain ⟨t, ht, hrest⟩ := Option.bind_eq_some_iff.mp hrun
    exact (h.step ht).run hrest

/-! ### Sequence numbers along a run -/

/-- An event keeps the sequence numbers in order, an insert below `u32::MAX`; only an insert
moves a counter, its key's, by one. -/
theorem step_sequenced {s s' : CommandLoop} {now : Nat} {e : CommandEvent}
    (h : s.db.Sequenced) (hmax : ∀ k, e.insertsFor k → s.db.counter k < 4294967295)
    (hstep : s.step now e = some s') :
    s'.db.Sequenced ∧
      ∀ k, (s'.db.counter k).toNat = (s.db.counter k).toNat + if e.insertsFor k then 1 else 0 := by
  cases e with
  | insert key command =>
    rw [CommandLoop.step] at hstep
    obtain ⟨r, hr, rfl⟩ := Option.map_eq_some_iff.mp hstep
    cases hr
    have hkey : s.db.counter key < 4294967295 := hmax key (beq_self_eq_true key)
    refine ⟨h.insertContractCommand key command now hkey, fun k => ?_⟩
    rw [counter_insertContractCommand h]
    by_cases hk : k = key
    · subst hk
      -- below `u32::MAX` the counter's successor is its number plus one
      have hlt := UInt32.lt_iff_toNat_lt.mp hkey
      simp only [CommandEvent.insertsFor, beq_self_eq_true, if_true]
      rw [UInt32.toNat_add, UInt32.toNat_one, Nat.mod_eq_of_lt (by simp at hlt ⊢; omega)]
    · simp [CommandEvent.insertsFor, hk, Ne.symm hk]
  | tick =>
    rw [CommandLoop.step] at hstep
    split at hstep
    · cases hstep
      exact ⟨h, fun k => rfl⟩
    · obtain ⟨⟨db', reply⟩, hr, rfl⟩ := Option.map_eq_some_iff.mp hstep
      obtain ⟨⟨db'', command, id⟩, hget, hr⟩ := Option.map_eq_some_iff.mp hr
      cases hr
      have hsequence : db''.contractCmdSequence = s.db.contractCmdSequence := by
        rcases getContractCommand_eq_some hget with ⟨rfl, -, -⟩ | ⟨-, -, -, -, -, rfl, -⟩ <;> rfl
      -- what the loop does with the answer leaves the tables as the fetch left them
      have hdb : ∀ s'' : CommandLoop, s''.db = db'' → s''.db.Sequenced ∧
          ∀ k, (s''.db.counter k).toNat =
            (s.db.counter k).toNat + if CommandEvent.tick.insertsFor k then 1 else 0 := by
        rintro s'' rfl
        exact ⟨h.getContractCommand hget, fun k => by simp [CommandEvent.insertsFor, counter, hsequence]⟩
      apply hdb
      split
      · split <;> rfl
      · rfl
  | finish ok =>
    rw [CommandLoop.step] at hstep
    split at hstep
    · cases hstep
      exact ⟨h, fun k => rfl⟩
    · obtain ⟨r, hr, rfl⟩ := Option.map_eq_some_iff.mp hstep
      -- on success and on failure alike the row is deleted
      cases ok <;> cases hr <;>
        exact ⟨h.deleteContractCommand _, fun k => by simp [CommandEvent.insertsFor]; rfl⟩

/-- Along a run in which every key's counter stays within `u32`, the sequence numbers stay
in order; the induction is on the events, and the counters rise by the inserts. -/
theorem run_sequenced :
    ∀ {es : List (Nat × CommandEvent)} {s s' : CommandLoop}, s.db.Sequenced →
      (∀ k, (s.db.counter k).toNat + insertCount k es < 2 ^ 32) →
      run es s = some s' → s'.db.Sequenced
  | [], _, _, h, _, hrun => by
    cases hrun
    exact h
  | e :: es, s, _, h, hfew, hrun => by
    obtain ⟨t, ht, hrest⟩ := Option.bind_eq_some_iff.mp hrun
    have hcount : ∀ k, insertCount k (e :: es) =
        insertCount k es + if e.2.insertsFor k then 1 else 0 := fun k => List.countP_cons
    -- an insert for a key happens below `u32::MAX`, as more inserts can follow it
    have hmax : ∀ k, e.2.insertsFor k → s.db.counter k < 4294967295 := by
      intro k hk
      have := hfew k
      rw [hcount, if_pos hk] at this
      exact UInt32.lt_iff_toNat_lt.mpr (by simp; omega)
    obtain ⟨ht', hcounter⟩ := step_sequenced h hmax ht
    refine run_sequenced ht' (fun k => ?_) hrest
    have := hfew k
    rw [hcount] at this
    rw [hcounter k]
    omega

/-- **Per key, the sequence numbers grow in insertion order** on every run of the loop from
its start that inserts fewer than `2 ^ 32` commands for each key. -/
theorem run_new_sequenced {es : List (Nat × CommandEvent)} {s : CommandLoop}
    (hrun : run es new = some s) (hfew : ∀ k, insertCount k es < 2 ^ 32) : s.db.Sequenced :=
  run_sequenced sequenced_empty (fun k => by simpa [counter, new, CommandDb.empty] using hfew k) hrun

/-- **Each key's commands start in the order they were inserted**: on every run of the loop
from its start that inserts fewer than `2 ^ 32` commands for each key, the command a tick
starts is the first row of its key in the table. -/
theorem tick_starts_first_of_key {es : List (Nat × CommandEvent)} {s s' : CommandLoop}
    {now : Nat} (hrun : run es new = some s) (hfew : ∀ k, insertCount k es < 2 ^ 32)
    (htick : s.step now .tick = some s') {id : UInt32} {command : String}
    (hstart : s'.started = s.started ++ [(id, command)]) :
    ∃ pre row suf, s.db.contractCommands = pre ++ row :: suf ∧ row.id.toUInt32 = id ∧
      row.command = command ∧
      ∀ r ∈ pre, r.validatorOrInitiatorId ≠ row.validatorOrInitiatorId := by
  have hseq := run_new_sequenced hrun hfew
  rw [step] at htick
  split at htick
  · -- a command is running: the tick starts nothing
    cases htick
    simp at hstart
  · obtain ⟨r, hr, rfl⟩ := Option.map_eq_some_iff.mp htick
    obtain ⟨⟨db', command', id'⟩, hget, rfl⟩ := Option.map_eq_some_iff.mp hr
    by_cases hzero : id' = 0
    · -- the empty table's answer starts nothing
      simp [hzero] at hstart
    · simp only [hzero, if_false, List.append_cancel_left_eq, List.cons.injEq, Prod.mk.injEq,
        and_true] at hstart
      obtain ⟨rfl, rfl⟩ := hstart
      exact getContractCommand_least hseq hget hzero

/-- Two commands for validator 7, inserted in turn. -/
def twoCommands : List (Nat × CommandEvent) := [(1, .insert 7 "A"), (2, .insert 7 "B")]

/-- The tick after the two inserts starts `A`, the first row of validator 7. -/
theorem tick_starts_first_inserted :
    (∀ k, insertCount k twoCommands < 2 ^ 32) ∧
      ∃ s s', run twoCommands new = some s ∧ s.step 12 .tick = some s' ∧
        s'.started = s.started ++ [(1, "A")] ∧
        ∃ pre row suf, s.db.contractCommands = pre ++ row :: suf ∧ row.id.toUInt32 = 1 ∧
          row.command = "A" ∧ ∀ r ∈ pre, r.validatorOrInitiatorId ≠ row.validatorOrInitiatorId := by
  have hfew : ∀ k, insertCount k twoCommands < 2 ^ 32 := fun k =>
    lt_of_le_of_lt List.countP_le_length (by decide)
  have hrun : run twoCommands new = some ⟨⟨[⟨1, 7, 1, "A", 1⟩, ⟨2, 7, 2, "B", 2⟩], [(7, 2)], 2⟩,
      none, []⟩ := by decide
  have htick : (⟨⟨[⟨1, 7, 1, "A", 1⟩, ⟨2, 7, 2, "B", 2⟩], [(7, 2)], 2⟩, none, []⟩ : CommandLoop).step
      12 .tick = some ⟨⟨[⟨1, 7, 1, "A", 12⟩, ⟨2, 7, 2, "B", 2⟩], [(7, 2)], 2⟩, some (1, "A"),
        [(1, "A")]⟩ := by decide
  exact ⟨hfew, _, _, hrun, htick, rfl, tick_starts_first_of_key hrun hfew htick rfl⟩

/-! ### A failed command -/

/-- An event keeps a gone id gone, and what it starts has another id. -/
theorem step_gone {s s' : CommandLoop} {id : UInt32} {now : Nat} {e : CommandEvent}
    (h : s.db.Gone id) (hstep : s.step now e = some s') :
    s'.db.Gone id ∧ ∃ new, s'.started = s.started ++ new ∧ ∀ x ∈ new, x.1 ≠ id := by
  rcases step_eq_some hstep with rfl | ⟨cmd, r, hr, hdb, hrunning⟩
  · exact ⟨h, [], (List.append_nil _).symm, fun _ hx => (nomatch hx)⟩
  · obtain ⟨hgone, hreply⟩ := h.handle hr
    refine ⟨hdb ▸ hgone, ?_⟩
    rcases hrunning with ⟨-, hsame⟩ | ⟨-, hsame⟩ | ⟨command, id', hid, hzero, -, hstart⟩
    · exact ⟨[], by rw [hsame, List.append_nil], fun _ hx => (nomatch hx)⟩
    · exact ⟨[], by rw [hsame, List.append_nil], fun _ hx => (nomatch hx)⟩
    · -- only a nonzero id starts, and the table never answers with the gone one
      refine ⟨[(id', command)], hstart, ?_⟩
      rintro x hx
      rw [List.mem_singleton] at hx
      subst hx
      exact (hreply _ hid).resolve_left hzero

/-- A gone id stays gone along any run, and the run starts no command of that id. -/
theorem run_gone {id : UInt32} :
    ∀ {es : List (Nat × CommandEvent)} {s s' : CommandLoop}, s.db.Gone id →
      run es s = some s' → s'.db.Gone id ∧ ∃ new, s'.started = s.started ++ new ∧ ∀ x ∈ new, x.1 ≠ id
  | [], s, _, h, hrun => by
    cases hrun
    exact ⟨h, [], (List.append_nil _).symm, fun _ hx => (nomatch hx)⟩
  | e :: es, s, _, h, hrun => by
    obtain ⟨t, ht, hrest⟩ := Option.bind_eq_some_iff.mp hrun
    obtain ⟨hgone, new₁, hnew₁, hid₁⟩ := step_gone h ht
    obtain ⟨hgone', new₂, hnew₂, hid₂⟩ := run_gone hgone hrest
    refine ⟨hgone', new₁ ++ new₂, by rw [hnew₂, hnew₁, List.append_assoc], ?_⟩
    intro x hx
    rcases List.mem_append.mp hx with hx | hx
    · exact hid₁ x hx
    · exact hid₂ x hx

/-- **A command that fails is deleted**: from a well-formed loop, the failure of the running
command leaves its id gone.  `Database::updatetime_contract_command` sends
`DeleteContractCommand`. -/
theorem finish_failed_gone {s s' : CommandLoop} {id : UInt32} {command : String} {now : Nat}
    (h : s.Wf) (hrunning : s.running = some (id, command))
    (hstep : s.step now (.finish false) = some s') : s'.db.Gone id := by
  rw [CommandLoop.step, hrunning] at hstep
  obtain ⟨r, hr, rfl⟩ := Option.map_eq_some_iff.mp hstep
  cases hr
  exact deleteContractCommand_gone (h.2 _ hrunning)

/-- **A failed command never runs again**: on every run of the loop, once the command it runs
fails, no later event starts a command of its id. -/
theorem run_not_started {pre post : List (Nat × CommandEvent)} {s₁ s₂ s : CommandLoop}
    {id : UInt32} {command : String} {now : Nat} (hpre : run pre new = some s₁)
    (hrunning : s₁.running = some (id, command)) (hfail : s₁.step now (.finish false) = some s₂)
    (hpost : run post s₂ = some s) : ∀ x ∈ s.started.drop s₂.started.length, x.1 ≠ id := by
  have hgone := finish_failed_gone (wf_new.run hpre) hrunning hfail
  obtain ⟨-, new, hnew, hid⟩ := run_gone hgone hpost
  rw [hnew, List.drop_left]
  exact hid

end CommandLoop

/-! ## A failed command is dropped -/

/-- Two commands for validator 7, each inserted in its own second; the loop fetches the
first, which fails, then fetches again, and later runs the second with success. -/
def failingCommandRun : List (Nat × CommandEvent) :=
  [(1, .insert 7 "A"), (2, .insert 7 "B"), (12, .tick), (13, .finish false), (24, .tick),
   (25, .finish true), (36, .tick)]

/-- Once `A`, the first command, has failed, the loop never starts a command of its id 1
again: it starts only `B`, of id 2. -/
theorem failed_command_not_restarted :
    ∃ s₁ s₂ s, CommandLoop.run (failingCommandRun.take 3) CommandLoop.new = some s₁ ∧
      s₁.running = some (1, "A") ∧ s₁.step 13 (.finish false) = some s₂ ∧
      CommandLoop.run (failingCommandRun.drop 4) s₂ = some s ∧
      ∀ x ∈ s.started.drop s₂.started.length, x.1 ≠ 1 := by
  refine ⟨_, _, _, rfl, ?_, rfl, rfl, ?_⟩
  · decide
  · exact @CommandLoop.run_not_started (failingCommandRun.take 3) (failingCommandRun.drop 4) _ _ _
      1 "A" 13 rfl (by decide) rfl rfl

/-- The failed command `A` is gone from the table when the loop next ticks: the loop runs
`B` in its place, and then finds the table empty. -/
theorem failed_command_skipped :
    (CommandLoop.run failingCommandRun CommandLoop.new).map
      (fun s => (s.started, s.db.contractCommands)) = some ([(1, "A"), (2, "B")], []) := by
  decide

end SafeStake.Contract
