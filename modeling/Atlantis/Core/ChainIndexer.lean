import Mathlib

/-!
# The chain indexer

`core/chain_indexer.go`.  A `ChainIndexer` hands the canonical chain to a backend in
sections of `sectionSize` blocks, and records for each section it has processed the hash
of its last block (`SectionHead`).  Two goroutines share its state under a lock: the event
loop, which calls `newHead` on each chain head event (on a reorg, first with the common
ancestor and `reorg` set, then with the new head), and `updateLoop`, which processes the
next section.  `updateLoop` lets go of the lock while `processSection` reads the section's
blocks, and once it holds the lock again stores the section if the head of the section
before is still the one it started from.

The model is a state machine over the indexer's state, the chain database and where
`updateLoop` stands.  Its steps are the pieces of code between taking and letting go of
the lock, the chain writing a new canonical chain, and `processSection`, which reads the
database at one point in time (one of the interleavings of the source's reads, block by
block).  The backend is taken to succeed; child indexers and the logging are not modelled.

A reorg drops the sections from the one holding the common ancestor on, so one whose
ancestor lies in the section being processed drops nothing (`newHead_reorg_within`); the
head `updateLoop` then stores is the one `processSection` read (`finish_stores`), which is
the canonical hash as it was before the reorg (`processSection_canonical`).
-/

namespace Atlantis.Core

/-- The indexer's constants: the blocks in a section (never zero), and the confirmations a
block needs before its section is processed. -/
structure IndexerConfig where
  sectionSize : Nat
  confirmsReq : Nat
  sectionSize_pos : 0 < sectionSize

/-- The chain database as the indexer reads it, with block hashes as numbers and `0` the zero
hash: `ReadCanonicalHash`, the zero hash where no block is canonical, and the parent hash of
the header `ReadHeader` finds under a hash and a number. -/
structure ChainDb where
  canonical : Nat → Nat
  parent : Nat → Nat → Option Nat

/-- The indexer's state: the sections known and stored, the head cascaded to children, the
section heads of the index database (the zero hash where none is stored), whether a signal
waits in the `update` channel (of capacity one), and the timers `time.AfterFunc` has set
to send one. -/
structure Indexer where
  knownSections : Nat
  storedSections : Nat
  cascadedHead : Nat
  sectionHead : Nat → Nat
  update : Bool
  timers : Nat

namespace Indexer

/-- `setSectionHead`. -/
def setSectionHead (c : Indexer) (sec hash : Nat) : Indexer :=
  { c with sectionHead := fun s => if s = sec then hash else c.sectionHead s }

@[simp] theorem storedSections_setSectionHead (c : Indexer) (sec hash : Nat) :
    (c.setSectionHead sec hash).storedSections = c.storedSections := rfl

/-- `removeSectionHead`, on the heads of the index database. -/
def removeSectionHead (heads : Nat → Nat) (sec : Nat) : Nat → Nat :=
  fun s => if s = sec then 0 else heads s

/-- The loop of `setValidSections`: the heads of the stored sections removed from the top
down to `sections`. -/
def removeAbove (sections : Nat) : Nat → (Nat → Nat) → Nat → Nat
  | 0, heads => heads
  | stored + 1, heads =>
    if sections < stored + 1 then removeAbove sections stored (removeSectionHead heads stored)
    else heads

/-- `setValidSections`. -/
def setValidSections (c : Indexer) (sections : Nat) : Indexer :=
  { c with
    sectionHead := removeAbove sections c.storedSections c.sectionHead
    storedSections := sections }

/-- `SectionHead(section - 1)`, with `section` a `uint64`: the section before section `0` is
`2^64 - 1`, whose head is never stored. -/
def headBefore (c : Indexer) (sec : Nat) : Nat :=
  c.sectionHead (if sec = 0 then 2 ^ 64 - 1 else sec - 1)

end Indexer

open Indexer

/-- `newHead`. -/
def newHead (cfg : IndexerConfig) (c : Indexer) (head : Nat) (reorg : Bool) : Indexer :=
  if reorg then
    -- Revert the known section number to the reorg point
    let changed := head / cfg.sectionSize
    let c := if changed < c.knownSections then { c with knownSections := changed } else c
    -- Revert the stored sections from the database to the reorg point
    let c := if changed < c.storedSections then c.setValidSections changed else c
    -- Update the new head number to the finalized section end
    let head := changed * cfg.sectionSize
    if head < c.cascadedHead then { c with cascadedHead := head } else c
  else if cfg.confirmsReq ≤ head then
    -- calculate the number of newly known sections and update if high enough
    let sections := (head + 1 - cfg.confirmsReq) / cfg.sectionSize
    if sections > c.knownSections then { c with knownSections := sections, update := true }
    else c
  else c

/-- The loop of `processSection` over `count` blocks from `number` on, `lastHead` the hash of
the block before: the hash of the last block, or nothing where a block is not canonical, its
header is missing, or it does not link to the block before. -/
def processBlocks (db : ChainDb) : Nat → Nat → Nat → Option Nat
  | 0, _, lastHead => some lastHead
  | count + 1, number, lastHead =>
    let hash := db.canonical number
    if hash = 0 then none
    else
      match db.parent hash number with
      | none => none
      | some parentHash =>
        if parentHash ≠ lastHead then none
        else processBlocks db count (number + 1) hash

/-- `processSection`, the backend succeeding: the hash of the section's last block, linked
to `lastHead`. -/
def processSection (cfg : IndexerConfig) (db : ChainDb) (sec lastHead : Nat) : Option Nat :=
  processBlocks db cfg.sectionSize (sec * cfg.sectionSize) lastHead

/-- Where `updateLoop` stands: waiting for a signal, or working on a section, with the head
of the section before it started from, the lock let go, before and after
`processSection`. -/
inductive Updater where
  | idle
  | unlocked (sec oldHead : Nat)
  | processed (sec oldHead : Nat) (result : Option Nat)
  deriving DecidableEq

/-- The chain database, the indexer, and where `updateLoop` stands. -/
structure Sys where
  db : ChainDb
  idx : Indexer
  updater : Updater

/-- The steps: the chain writes a new canonical chain; the event loop calls `newHead`;
`updateLoop` receives the update signal, runs `processSection`, and finishes the section;
a timer sends the update signal. -/
inductive Action where
  | write (db : ChainDb)
  | newHead (head : Nat) (reorg : Bool)
  | receive
  | process
  | finish
  | fire

/-- `updateLoop` on a signal, under the lock up to `processSection`: the next section to
process and the head of the section before, or, with nothing to process, back to
waiting. -/
def receive (c : Indexer) : Updater :=
  if c.knownSections > c.storedSections then
    -- Cache the current section count and head to allow unlocking the mutex
    let sec := c.storedSections
    let oldHead := if sec > 0 then c.sectionHead (sec - 1) else 0
    .unlocked sec oldHead
  else .idle

/-- `updateLoop` after `processSection`, under the lock again. -/
def finish (cfg : IndexerConfig) (c : Indexer) (sec oldHead : Nat) (result : Option Nat) :
    Indexer :=
  let c :=
    match result with
    | some newHead =>
      -- If processing succeeded and no reorgs occcurred, mark the section completed
      if oldHead = c.headBefore sec then
        let c := (c.setSectionHead sec newHead).setValidSections (sec + 1)
        { c with cascadedHead := c.storedSections * cfg.sectionSize - 1 }
      else { c with knownSections := c.storedSections }
    | none => { c with knownSections := c.storedSections }
  -- If there are still further sections to process, reschedule
  if c.knownSections > c.storedSections then { c with timers := c.timers + 1 } else c

/-- One step, where it can be taken. -/
def step (cfg : IndexerConfig) (s : Sys) : Action → Option Sys
  | .write db => some { s with db := db }
  | .newHead head reorg => some { s with idx := newHead cfg s.idx head reorg }
  | .receive =>
    match s.updater with
    | .idle => if s.idx.update then some { s with
        idx := { s.idx with update := false }, updater := receive s.idx } else none
    | _ => none
  | .process =>
    match s.updater with
    | .unlocked sec oldHead =>
      some { s with updater := .processed sec oldHead (processSection cfg s.db sec oldHead) }
    | _ => none
  | .finish =>
    match s.updater with
    | .processed sec oldHead result =>
      some { s with idx := finish cfg s.idx sec oldHead result, updater := .idle }
    | _ => none
  | .fire =>
    if 0 < s.idx.timers then
      some { s with idx := { s.idx with timers := s.idx.timers - 1, update := true } }
    else none

/-- A run of steps, each where it can be taken. -/
def run (cfg : IndexerConfig) : Sys → List Action → Option Sys
  | s, [] => some s
  | s, a :: as => (step cfg s a).bind fun s => run cfg s as

/-- Nothing left to do: `updateLoop` waits, with no signal sent or to come. -/
def Quiescent (s : Sys) : Prop :=
  s.updater = .idle ∧ s.idx.update = false ∧ s.idx.timers = 0

instance (s : Sys) : Decidable (Quiescent s) := inferInstanceAs (Decidable (_ ∧ _ ∧ _))

/-- Every stored section's head is the canonical hash of the section's last block. -/
def HeadsCanonical (cfg : IndexerConfig) (s : Sys) : Prop :=
  ∀ sec < s.idx.storedSections, s.idx.sectionHead sec = s.db.canonical ((sec + 1) * cfg.sectionSize - 1)

instance (cfg : IndexerConfig) (s : Sys) : Decidable (HeadsCanonical cfg s) :=
  inferInstanceAs (Decidable (∀ sec < s.idx.storedSections, _))

/-! ## What a section's processing reads and stores -/

/-- The loop of `processSection` returns the hash the database holds as canonical for the
last block it reads. -/
theorem processBlocks_canonical (db : ChainDb) :
    ∀ (count number lastHead h : Nat), processBlocks db (count + 1) number lastHead = some h →
      h = db.canonical (number + count)
  | 0, number, lastHead, h, hp => by
    simp only [processBlocks] at hp
    split_ifs at hp
    split at hp
    · simp at hp
    · split_ifs at hp
      simpa using hp.symm
  | count + 1, number, lastHead, h, hp => by
    rw [processBlocks] at hp
    split_ifs at hp
    split at hp
    · simp at hp
    · split_ifs at hp
      rw [processBlocks_canonical db count (number + 1) _ h hp]
      congr 1
      omega

/-- **`processSection` returns the canonical hash of the section's last block**, as the
database held it when it read it. -/
theorem processSection_canonical (cfg : IndexerConfig) (db : ChainDb) {sec lastHead h : Nat}
    (hp : processSection cfg db sec lastHead = some h) :
    h = db.canonical ((sec + 1) * cfg.sectionSize - 1) := by
  obtain ⟨k, hk⟩ : ∃ k, cfg.sectionSize = k + 1 := ⟨cfg.sectionSize - 1, by
    have := cfg.sectionSize_pos
    omega⟩
  rw [processSection, hk] at hp
  rw [processBlocks_canonical db k _ lastHead h hp, hk]
  congr 1
  rw [Nat.succ_mul]
  omega

/-- The heads below `sections` are kept by `setValidSections`. -/
theorem removeAbove_of_lt {sections s : Nat} (hs : s < sections) :
    ∀ (stored : Nat) (heads : Nat → Nat), removeAbove sections stored heads s = heads s
  | 0, heads => rfl
  | stored + 1, heads => by
    rw [removeAbove]
    split_ifs with h
    · rw [removeAbove_of_lt hs stored, removeSectionHead, if_neg (by omega)]
    · rfl

/-- Nothing is removed by `setValidSections` from fewer sections stored than kept. -/
theorem removeAbove_of_le {sections : Nat} :
    ∀ {stored : Nat}, stored ≤ sections → ∀ heads : Nat → Nat, removeAbove sections stored heads = heads
  | 0, _, heads => rfl
  | stored + 1, h, heads => by
    rw [removeAbove, if_neg (by omega)]

/-- **A reorg inside the section being processed drops nothing**: when the common ancestor
lies in the first section not stored, `newHead` keeps the stored sections and their
heads. -/
theorem newHead_reorg_within (cfg : IndexerConfig) (c : Indexer) {head : Nat}
    (hw : head / cfg.sectionSize = c.storedSections) :
    (newHead cfg c head true).storedSections = c.storedSections ∧
      (newHead cfg c head true).sectionHead = c.sectionHead := by
  unfold newHead
  simp only [if_true, hw]
  -- `changed` is the number of sections stored, so `setValidSections` keeps them all
  split_ifs <;> simp [setValidSections, removeAbove_of_le (Nat.le_refl _)]

/-- **`updateLoop` stores the head it read**: after `processSection` returned a head, with the
head of the section before unchanged, the section is stored with that head, whatever the
chain holds now. -/
theorem finish_stores (cfg : IndexerConfig) (c : Indexer) {sec oldHead h : Nat}
    (hold : oldHead = c.headBefore sec) (hstored : c.storedSections ≤ sec + 1) :
    (finish cfg c sec oldHead (some h)).storedSections = sec + 1 ∧
      (finish cfg c sec oldHead (some h)).sectionHead sec = h := by
  have hkeep : removeAbove (sec + 1) c.storedSections
      (c.setSectionHead sec h).sectionHead sec = h := by
    rw [removeAbove_of_le hstored]
    simp [setSectionHead]
  simp only [finish, if_pos hold]
  split_ifs <;> simp [setValidSections, hkeep]

/-! ## A reorg during processing -/

/-- Sections of two blocks, processed with no confirmations. -/
def twoBlockSections : IndexerConfig := ⟨2, 0, by decide⟩

/-- A chain `a0 a1 a2 a3` (hashes `10` to `13`). -/
def chainA : ChainDb :=
  ⟨fun n => if n < 4 then 10 + n else 0,
    fun h n => if h = 10 + n ∧ n < 4 then some (if n = 0 then 0 else 9 + n) else none⟩

/-- The chain `a0 a1 a2 b3 b4` (hashes `10`, `11`, `12`, `23`, `24`) that replaces `chainA`
from block `3` on; its common ancestor with `chainA` is block `2`. -/
def chainB : ChainDb :=
  ⟨fun n => if n < 3 then 10 + n else if n < 5 then 20 + n else 0,
    fun h n => if h = 10 + n ∧ n < 4 then some (if n = 0 then 0 else 9 + n)
      else if h = 20 + n ∧ 3 ≤ n ∧ n < 5 then some (if n = 3 then 12 else 19 + n) else none⟩

/-- The indexer started on `chainA`, nothing known or stored. -/
def startA : Sys := ⟨chainA, ⟨0, 0, 0, fun _ => 0, false, 0⟩, .idle⟩

/-- Head `3` of `chainA` makes two sections known; `updateLoop` stores section `0`, and
reads section `1` from `chainA`; then the chain reorgs to `chainB` from block `3`, the event
loop reports the reorg to block `2` and the new head `4`, and `updateLoop` finishes section
`1` and takes the last signal. -/
def reorgDuringProcessing : List Action :=
  [.newHead 3 false, .receive, .process, .finish, .fire, .receive, .process,
    .write chainB, .newHead 2 true, .newHead 4 false, .finish, .receive]

/-- **A stale section head stays**: after the run, the indexer has nothing left to do, holds
two sections, and the head of section `1` is block `3` of `chainA`, no longer canonical. -/
theorem indexer_keeps_stale_head :
    ∃ s, run twoBlockSections startA reorgDuringProcessing = some s ∧ Quiescent s ∧
      s.idx.storedSections = 2 ∧ s.idx.sectionHead 1 = 13 ∧ s.db.canonical 3 = 23 ∧
      ¬ HeadsCanonical twoBlockSections s :=
  ⟨_, rfl, by decide, rfl, rfl, rfl, by decide⟩

end Atlantis.Core
