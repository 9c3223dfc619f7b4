import SafeStake.StateInvariant

/-! # Polling the contracts' logs

`Contract::get_logs_from_contract` keeps a cursor, `ContractRecord::block_num`, and
every three minutes asks `eth_getLogs` for the logs of two filters (the validator
contract's and the initiator registry's) from the cursor on, at most 20 each.  The
logs that came back are sorted by block and passed to the handler of their topic, and
the cursor moves past the last of them; when none came back, the cursor moves to the
current head.

The loop is right when both queries return every log from the cursor on
(`Poller.run_complete`).  A query that fails, or one that the limit cuts short while the
other reaches further, moves the cursor past logs that no handler saw, and the cursor
never comes back to them (`Poller.run_not_handled`).
-/

namespace SafeStake.Contract

open StateInvariant

/-- The topics `construct_filter` asks for, each with its handler. -/
inductive Topic where
  | validatorRegistration
  | validatorRemoval
  | initiatorRegistration
  | minipoolCreated
  | minipoolReady
  | initiatorRemoval
deriving DecidableEq, Repr

/-- A log of one of the two contracts. -/
structure Log where
  blockNumber : Nat
  logIndex : Nat
  topic : Topic
deriving DecidableEq, Repr

/-- `ContractRecord`: the block the next queries start from. -/
structure ContractRecord where
  blockNum : Nat
deriving DecidableEq, Repr

/-- What one iteration of the loop hears back; `none` where the call fails. -/
structure Replies where
  vaLogs : Option (List Log)
  initiatorLogs : Option (List Log)
  /-- The `get_current_block` asked when no log came back. -/
  currentBlock : Option Nat

/-- The logs an iteration got back: the validator filter's, then the initiator filter's. -/
def Replies.allLogs (r : Replies) : List Log := r.vaLogs.getD [] ++ r.initiatorLogs.getD []

/-- The order `sort_by` compares logs in. -/
def BlockLe (a b : Log) : Prop := a.blockNumber ≤ b.blockNumber

instance : DecidableRel BlockLe := fun a b => inferInstanceAs (Decidable (a.blockNumber ≤ b.blockNumber))

instance : Std.Total BlockLe := ⟨fun a b => Nat.le_total a.blockNumber b.blockNumber⟩

instance : IsTrans Log BlockLe := ⟨fun _ _ _ => Nat.le_trans⟩

/-- `all_logs.sort_by` on the block numbers: a stable sort. -/
def sortByBlock (logs : List Log) : List Log := logs.insertionSort BlockLe

/-- The loop's state: the record, and the logs passed to their handlers so far, oldest
first.  `construct_filter` registers a handler for every topic either filter asks for, so
every log that comes back is passed to one. -/
structure Poller where
  record : ContractRecord
  handled : List Log

namespace Poller

/-- The cursor after handling some logs in turn: past the last of them. -/
def advance (record : ContractRecord) (logs : List Log) : ContractRecord :=
  logs.foldl (fun _ log => ⟨log.blockNumber + 1⟩) record

/-- One iteration of the loop of `get_logs_from_contract`. -/
def iterate (p : Poller) (r : Replies) : Poller :=
  let allLogs := r.allLogs
  if allLogs.length = 0 then
    match r.currentBlock with
    | some b => { p with record := ⟨b⟩ }
    | none => p
  else
    let sorted := sortByBlock allLogs
    ⟨advance p.record sorted, p.handled ++ sorted⟩

/-- The loop over the replies of its iterations. -/
def run (p : Poller) (rs : List Replies) : Poller := rs.foldl iterate p

/-! ## What an iteration does -/

/-- Handling sorted logs moves the cursor past every one of them. -/
theorem lt_advance (record : ContractRecord) :
    ∀ {logs : List Log}, logs.Pairwise BlockLe →
      ∀ l ∈ logs, l.blockNumber < (advance record logs).blockNum
  | [], _, l, hl => absurd hl (List.not_mem_nil)
  | [a], _, l, hl => by
    rw [List.mem_singleton] at hl
    subst hl
    simp [advance]
  | a :: b :: logs, hsorted, l, hl => by
    have hrest := lt_advance ⟨a.blockNumber + 1⟩ hsorted.of_cons
    have hab : BlockLe a b := List.rel_of_pairwise_cons hsorted (List.mem_cons_self ..)
    have hb := hrest b (List.mem_cons_self ..)
    rcases List.mem_cons.mp hl with rfl | hl
    · exact Nat.lt_of_le_of_lt hab hb
    · exact hrest l hl

/-- An iteration that got no log back hands nothing to the handlers. -/
theorem iterate_handled_of_empty {p : Poller} {r : Replies} (h : r.allLogs = []) :
    (iterate p r).handled = p.handled := by
  unfold iterate
  cases r.currentBlock <;> simp [h]

/-- An iteration that got logs back hands every one of them to its handler, oldest block
first, and moves the cursor past all of them. -/
theorem iterate_of_ne_nil {p : Poller} {r : Replies} (h : r.allLogs ≠ []) :
    (iterate p r).handled = p.handled ++ sortByBlock r.allLogs ∧
      ∀ l ∈ r.allLogs, l.blockNumber < (iterate p r).record.blockNum := by
  have hlen : r.allLogs.length ≠ 0 := by simpa using h
  have hsorted : (sortByBlock r.allLogs).Pairwise BlockLe := List.pairwise_insertionSort _ _
  refine ⟨by simp [iterate, hlen], fun l hl => ?_⟩
  have hmem : l ∈ sortByBlock r.allLogs := (List.perm_insertionSort _ _).mem_iff.mpr hl
  simpa [iterate, hlen] using lt_advance p.record hsorted l hmem

end Poller

open Poller

/-! ## The environment -/

/-- What `eth_getLogs` may answer on a filter whose logs are `logs`, from block `b` with
limit 20: a failure, or at most 20 of the logs from block `b` on, a prefix of them. -/
def LogsReply (logs : List Log) (b : Nat) : Option (List Log) → Prop
  | none => True
  | some ls => ls <+: logs.filter (fun l => b ≤ l.blockNumber) ∧ ls.length ≤ 20

instance (logs : List Log) (b : Nat) : DecidablePred (LogsReply logs b)
  | none => inferInstanceAs (Decidable True)
  | some _ => inferInstanceAs (Decidable (_ ∧ _))

/-- The chain as the two filters see it: their logs, each in block order. -/
structure Chain where
  vaLogs : List Log
  initiatorLogs : List Log
  vaSorted : vaLogs.Pairwise BlockLe
  initiatorSorted : initiatorLogs.Pairwise BlockLe

/-- Every log of either filter. -/
def Chain.logs (c : Chain) : List Log := c.vaLogs ++ c.initiatorLogs

/-- Replies the chain `c` may give at state `p`: each logs query fails or returns a
prefix of at most 20 of its filter's logs from the cursor on, and the head is no earlier
than the block of any log returned so far. -/
structure Replies.Allowed (c : Chain) (p : Poller) (r : Replies) : Prop where
  va : LogsReply c.vaLogs p.record.blockNum r.vaLogs
  initiator : LogsReply c.initiatorLogs p.record.blockNum r.initiatorLogs
  head : ∀ h, r.currentBlock = some h → ∀ l ∈ p.handled, l.blockNumber ≤ h

/-- What every chain's replies have in common, however it grows: logs from the cursor
on, and a head no earlier than any log returned so far. -/
structure Replies.FromCursor (p : Poller) (r : Replies) : Prop where
  logs : ∀ l ∈ r.allLogs, p.record.blockNum ≤ l.blockNumber
  head : ∀ h, r.currentBlock = some h → ∀ l ∈ p.handled, l.blockNumber ≤ h

theorem LogsReply.le {logs : List Log} {b : Nat} {reply : Option (List Log)}
    (h : LogsReply logs b reply) : ∀ l ∈ reply.getD [], b ≤ l.blockNumber := by
  cases reply with
  | none => simp
  | some ls =>
    intro l hl
    have hmem := h.1.subset hl
    simp only [List.mem_filter, decide_eq_true_eq] at hmem
    exact hmem.2

theorem Replies.Allowed.fromCursor {c : Chain} {p : Poller} {r : Replies}
    (h : Replies.Allowed c p r) : Replies.FromCursor p r where
  logs l hl := by
    rcases List.mem_append.mp hl with hl | hl
    · exact h.va.le l hl
    · exact h.initiator.le l hl
  head := h.head

/-! ## With complete replies the loop misses nothing -/

/-- Every log of the chain before the cursor has been passed to its handler. -/
def Poller.Complete (c : Chain) (p : Poller) : Prop :=
  ∀ l ∈ c.logs, l.blockNumber < p.record.blockNum → l ∈ p.handled

instance (c : Chain) (p : Poller) : Decidable (Complete c p) :=
  inferInstanceAs (Decidable (∀ l ∈ c.logs, _))

/-- Both queries return every log of their filter from the cursor on. -/
def Replies.Exact (c : Chain) (p : Poller) (r : Replies) : Prop :=
  r.vaLogs = some (c.vaLogs.filter fun l => p.record.blockNum ≤ l.blockNumber) ∧
    r.initiatorLogs = some (c.initiatorLogs.filter fun l => p.record.blockNum ≤ l.blockNumber)

/-- Under exact replies a log of the chain from the cursor on comes back. -/
theorem Replies.Exact.mem {c : Chain} {p : Poller} {r : Replies} (h : Replies.Exact c p r)
    {l : Log} (hl : l ∈ c.logs) (hle : p.record.blockNum ≤ l.blockNumber) : l ∈ r.allLogs := by
  rcases List.mem_append.mp hl with hl | hl
  · simp [Replies.allLogs, h.1, hl, hle]
  · simp [Replies.allLogs, h.2, hl, hle]

/-- After an iteration on exact replies from a complete state, every log of the chain
has been handled. -/
theorem Poller.iterate_exact {c : Chain} {p : Poller} {r : Replies} (hp : Complete c p)
    (hr : Replies.Exact c p r) : ∀ l ∈ c.logs, l ∈ (iterate p r).handled := by
  intro l hl
  by_cases hbefore : l.blockNumber < p.record.blockNum
  · -- handled before; an iteration only appends to `handled`
    have hold := hp l hl hbefore
    by_cases hempty : r.allLogs = []
    · simpa [iterate_handled_of_empty hempty] using hold
    · simp [(iterate_of_ne_nil hempty).1, hold]
  · -- from the cursor on: it came back in this iteration
    have hback := hr.mem hl (Nat.le_of_not_lt hbefore)
    have hne : r.allLogs ≠ [] := List.ne_nil_of_mem hback
    have hsorted : l ∈ sortByBlock r.allLogs := (List.perm_insertionSort _ _).mem_iff.mpr hback
    simp [(iterate_of_ne_nil hne).1, hsorted]

theorem Poller.iterate_complete {c : Chain} {p : Poller} {r : Replies} (hp : Complete c p)
    (hr : Replies.Exact c p r) : Complete c (iterate p r) :=
  fun l hl _ => iterate_exact hp hr l hl

/-- **With exact replies no log is skipped**: over any run on a chain whose queries never
fail and are never cut short, every log before the cursor has been handled after each
iteration. -/
theorem Poller.run_complete {c : Chain} {p : Poller} {rs : List Replies} (hp : Complete c p)
    (hrs : Admissible iterate (Replies.Exact c) p rs) : Complete c (run p rs) :=
  foldl_invariant (fun _ _ hp hr => iterate_complete hp hr) hp hrs

/-! ## A skipped log stays skipped -/

/-- The cursor is at block `B` or later, and so is a log already handled. -/
structure Poller.Floor (B : Nat) (p : Poller) : Prop where
  cursor : B ≤ p.record.blockNum
  handled : ∃ l ∈ p.handled, B ≤ l.blockNumber

theorem Poller.iterate_floor {B : Nat} {p : Poller} {r : Replies} (hp : Floor B p)
    (hr : Replies.FromCursor p r) : Floor B (iterate p r) := by
  by_cases hempty : r.allLogs = []
  · have hhandled := iterate_handled_of_empty (p := p) hempty
    obtain ⟨l, hl, hBl⟩ := hp.handled
    refine ⟨?_, ⟨l, hhandled ▸ hl, hBl⟩⟩
    -- the cursor stays, or moves to a head no earlier than the handled log
    have hlen : r.allLogs.length = 0 := by simp [hempty]
    unfold iterate
    cases hb : r.currentBlock with
    | none => simpa [hlen] using hp.cursor
    | some b => simpa [hlen, hb] using Nat.le_trans hBl (hr.head b hb l hl)
  · obtain ⟨hhandled, hpast⟩ := iterate_of_ne_nil (p := p) hempty
    obtain ⟨l, hl⟩ := List.exists_mem_of_ne_nil _ hempty
    have hBl : B ≤ l.blockNumber := Nat.le_trans hp.cursor (hr.logs l hl)
    have hsorted : l ∈ sortByBlock r.allLogs := (List.perm_insertionSort _ _).mem_iff.mpr hl
    exact ⟨Nat.le_of_lt (Nat.lt_of_le_of_lt hBl (hpast l hl)), ⟨l, by simp [hhandled, hsorted], hBl⟩⟩

/-- An iteration from a floor at `B` hands no log of a block before `B` to a handler. -/
theorem Poller.iterate_not_handled {B : Nat} {p : Poller} {r : Replies} (hp : Floor B p)
    (hr : Replies.FromCursor p r) {l : Log} (hl : l.blockNumber < B) (hnot : l ∉ p.handled) :
    l ∉ (iterate p r).handled := by
  by_cases hempty : r.allLogs = []
  · rwa [iterate_handled_of_empty hempty]
  · rw [(iterate_of_ne_nil hempty).1, List.mem_append, not_or]
    refine ⟨hnot, fun hsorted => ?_⟩
    have hback := (List.perm_insertionSort _ _).mem_iff.mp hsorted
    have := Nat.le_trans hp.cursor (hr.logs l hback)
    omega

/-- **A skipped log stays skipped.**  Once the cursor and a handled log are at block `B`
or later, a log of an earlier block that no handler has seen is never handled, whatever
the chain answers later. -/
theorem Poller.run_not_handled {B : Nat} {p : Poller} {rs : List Replies} (hp : Floor B p)
    (hrs : Admissible iterate Replies.FromCursor p rs) {l : Log} (hl : l.blockNumber < B)
    (hnot : l ∉ p.handled) : l ∉ (run p rs).handled := by
  -- the floor carries the argument; the log's absence rides along with it
  have hstep : ∀ q r, Floor B q ∧ l ∉ q.handled → Replies.FromCursor q r →
      Floor B (iterate q r) ∧ l ∉ (iterate q r).handled :=
    fun _ _ hq hr => ⟨iterate_floor hq.1 hr, iterate_not_handled hq.1 hr hl hq.2⟩
  exact (foldl_invariant hstep ⟨hp, hnot⟩ hrs).2

/-- **What the poller guarantees, and what it does not.**  Over every run whose queries
return the chain's logs from the cursor on, uncut, every log before the cursor has been
handled after each iteration; over every run whose replies are ones the chain may give, a
log that the cursor and a handled log have passed without a handler is never handled. -/
theorem Poller.run_handles_or_skips (c : Chain) (p : Poller) (rs : List Replies) :
    (Complete c p → Admissible iterate (Replies.Exact c) p rs → Complete c (run p rs)) ∧
    ∀ (B : Nat) (l : Log), Floor B p → Admissible iterate (Replies.Allowed c) p rs →
      l.blockNumber < B → l ∉ p.handled → l ∉ (run p rs).handled :=
  ⟨fun hp hrs => run_complete hp hrs, fun _ _ hp hrs hl hnot =>
    run_not_handled hp (hrs.mono fun _ _ h => h.fromCursor) hl hnot⟩

/-! ## Two ways to skip a log -/

/-- The loop from block 0, with nothing handled yet. -/
def Poller.start : Poller := ⟨⟨0⟩, []⟩

/-- A validator registration at block 5 and an initiator registration at block 10. -/
def twoContractsChain : Chain :=
  ⟨[⟨5, 0, .validatorRegistration⟩], [⟨10, 0, .initiatorRegistration⟩], by decide, by decide⟩

/-- The validator filter's query fails; the initiator filter's returns its log. -/
def failedVaQuery : Replies := ⟨none, some [⟨10, 0, .initiatorRegistration⟩], none⟩

/-- Validator registrations at blocks 1 to 21, and an initiator registration at block 30. -/
def busyChain : Chain :=
  ⟨(List.range 21).map fun i => ⟨i + 1, 0, .validatorRegistration⟩,
    [⟨30, 0, .initiatorRegistration⟩], by decide, by decide⟩

/-- Both queries succeed, and the limit cuts the validator filter's logs at 20. -/
def truncatedVaQuery : Replies :=
  ⟨some ((List.range 20).map fun i => ⟨i + 1, 0, .validatorRegistration⟩),
    some [⟨30, 0, .initiatorRegistration⟩], none⟩

/-- In each case the replies are ones the chain may give, and after the iteration a log
before the cursor has not been handled. -/
theorem contract_logs_skipped :
    (Replies.Allowed twoContractsChain Poller.start failedVaQuery ∧
      ¬ Poller.Complete twoContractsChain (Poller.start.iterate failedVaQuery)) ∧
    (Replies.Allowed busyChain Poller.start truncatedVaQuery ∧
      ¬ Poller.Complete busyChain (Poller.start.iterate truncatedVaQuery)) := by
  refine ⟨⟨⟨by decide, by decide, by simp [failedVaQuery]⟩, by decide +kernel⟩,
    ⟨⟨by decide +kernel, by decide, by simp [truncatedVaQuery]⟩, by decide +kernel⟩⟩

end SafeStake.Contract
