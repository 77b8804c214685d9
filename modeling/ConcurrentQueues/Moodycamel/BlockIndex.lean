import ConcurrentQueues.Moodycamel.Producer

/-!
# The block index of an explicit producer

A dequeue knows the index of its element and finds the block by the block index,
a circular array with an entry for each block.  `front` names the entry of the
last block, and the entries of the blocks before it stand before it.  Only the
producer knows where the next entry goes and how many are in use.  An array that
is full is left behind for one of twice the size.

The program on the blocks is written for any block index.  Here are the one of
the source and one that keeps all entries.
-/

namespace ConcurrentQueues
namespace Moodycamel

/-- The types of a block index: the index, what an enqueue keeps of it to fall
back to, where the search of a dequeue stands, and what the search finds. -/
structure IndexKind where
  Index : Type
  Original : Type
  Search : Type
  Found : Type

/-- What the producer and the threads that dequeue do with a block index. -/
structure BlockIndex (K : IndexKind) where
  new : K.Index
  original : K.Index → K.Original
  restore : K.Original → K.Index → K.Index
  /-- there is a slot for one more block -/
  hasRoom : K.Index → Bool
  newBlockIndex : K.Original → K.Index → K.Original × K.Index
  /-- one more block is in use -/
  useSlot : K.Index → K.Index
  addEntry (base block : ℕ) : K.Index → K.Index
  /-- the entries of an enqueue, for its blocks, are to be found -/
  publish (startTailIndex : ℕ) (blocks : List ℕ) : K.Index → K.Index
  search (index : ℕ) : K.Search
  look : K.Index → K.Search → K.Search ⊕ K.Found
  /-- the entry of the next block, in which `index` lies -/
  next (index : ℕ) : K.Index → K.Found → K.Found
  block : K.Found → ℕ

/-! ## The index of the source -/

structure BlockIndexEntry where
  base : ℕ
  block : ℕ

/-- `front` is the current slot, not the next one. -/
structure BlockIndexHeader where
  size : ℕ
  front : ℕ
  entries : ℕ → BlockIndexEntry

/-- The arrays that `blockIndex` has pointed to, by number, and what only the
producer uses. -/
structure BlockIndexes where
  headers : ℕ → BlockIndexHeader
  blockIndex : ℕ
  prBlockIndexSlotsUsed : ℕ
  prBlockIndexFront : ℕ

/-- Where a dequeue stands that looks for the block of an index. -/
inductive BlockSearch
  /-- before the load of `blockIndex` -/
  | blockIndex (index : ℕ)
  /-- before the load of `front` -/
  | front (index localBlockIndex : ℕ)
  /-- before the look at the base of the current entry -/
  | headBase (index localBlockIndex localBlockIndexHead : ℕ)
  /-- before the look at the entry of the index -/
  | entry (localBlockIndex indexIndex : ℕ)

/-- The entry that a dequeue has looked at, and the block in it. -/
structure FoundBlock where
  localBlockIndex : ℕ
  indexIndex : ℕ
  block : ℕ

/-- The slot of the block that starts at `blockBaseIndex`.  The sizes are powers
of two, so `& (size - 1)` is a remainder. -/
def indexIndex (w BLOCK_SIZE size localBlockIndexHead headBase
    blockBaseIndex : ℕ) : ℕ :=
  let S := SizeT.bits w
  let offset := (S.signed (S.sub blockBaseIndex headBase)).tdiv BLOCK_SIZE
  (((localBlockIndexHead : ℤ) + offset) % (size : ℤ)).toNat

namespace BlockIndexes

variable (X : BlockIndexes)

/-- The array in use. -/
def header : BlockIndexHeader :=
  X.headers X.blockIndex

/-- The constructor allocates the first array. -/
def new (w initialSize : ℕ) : BlockIndexes where
  headers _ := ⟨initialSize, (SizeT.bits w).sub 0 1, fun _ => ⟨0, 0⟩⟩
  blockIndex := 0
  prBlockIndexSlotsUsed := 0
  prBlockIndexFront := 0

/-- `new_block_index`, with the entries that are in use. -/
def newBlockIndex (w numberOfFilledSlotsToExpose : ℕ) : BlockIndexes where
  headers := Function.update X.headers (X.blockIndex + 1) {
    size := 2 * X.header.size
    front := (SizeT.bits w).sub numberOfFilledSlotsToExpose 1
    entries := fun j =>
      if j < X.prBlockIndexSlotsUsed then
        X.header.entries ((X.prBlockIndexFront + X.header.size -
          X.prBlockIndexSlotsUsed + j) % X.header.size)
      else ⟨0, 0⟩ }
  blockIndex := X.blockIndex + 1
  prBlockIndexSlotsUsed := X.prBlockIndexSlotsUsed
  prBlockIndexFront := X.prBlockIndexSlotsUsed

/-- The entry in the next slot. -/
def addEntry (base block : ℕ) : BlockIndexes where
  headers := Function.update X.headers X.blockIndex { X.header with
    entries := Function.update X.header.entries X.prBlockIndexFront
      ⟨base, block⟩ }
  blockIndex := X.blockIndex
  prBlockIndexSlotsUsed := X.prBlockIndexSlotsUsed
  prBlockIndexFront := (X.prBlockIndexFront + 1) % X.header.size

/-- The last entry is the current one. -/
def publish : BlockIndexes :=
  { X with headers := Function.update X.headers X.blockIndex { X.header with
      front := (X.prBlockIndexFront + X.header.size - 1) % X.header.size } }

/-- One step of the search for a block. -/
def look (w BLOCK_SIZE : ℕ) : BlockSearch → BlockSearch ⊕ FoundBlock
  | .blockIndex index => .inl (.front index X.blockIndex)
  | .front index localBlockIndex =>
      .inl (.headBase index localBlockIndex (X.headers localBlockIndex).front)
  | .headBase index localBlockIndex localBlockIndexHead =>
      let header := X.headers localBlockIndex
      .inl (.entry localBlockIndex (indexIndex w BLOCK_SIZE header.size
        localBlockIndexHead (header.entries localBlockIndexHead).base
        (blockBase BLOCK_SIZE index)))
  | .entry localBlockIndex indexIndex =>
      .inr ⟨localBlockIndex, indexIndex,
        ((X.headers localBlockIndex).entries indexIndex).block⟩

/-- The entry behind the last one. -/
def next (found : FoundBlock) : FoundBlock :=
  let header := X.headers found.localBlockIndex
  let indexIndex := (found.indexIndex + 1) % header.size
  ⟨found.localBlockIndex, indexIndex, (header.entries indexIndex).block⟩

end BlockIndexes

/-- An enqueue keeps `pr_blockIndexFront` and `pr_blockIndexSlotsUsed`. -/
abbrev ofArrays : IndexKind :=
  ⟨BlockIndexes, ℕ × ℕ, BlockSearch, FoundBlock⟩

/-- The block index of the source.  The first size is the greater one of
`EXPLICIT_INITIAL_INDEX_SIZE` and what the initial block pool needs. -/
def circular (w BLOCK_SIZE initialSize : ℕ) : BlockIndex ofArrays where
  new := .new w initialSize
  original X := (X.prBlockIndexFront, X.prBlockIndexSlotsUsed)
  restore original X := { X with
    prBlockIndexFront := original.1
    prBlockIndexSlotsUsed := original.2 }
  hasRoom X := X.prBlockIndexSlotsUsed ≠ X.header.size
  -- the front to fall back to is that of the new array
  newBlockIndex original X :=
    ((original.2, original.2), X.newBlockIndex w original.2)
  useSlot X := { X with prBlockIndexSlotsUsed := X.prBlockIndexSlotsUsed + 1 }
  addEntry base block X := X.addEntry base block
  publish _ _ X := X.publish
  search := .blockIndex
  look X := X.look w BLOCK_SIZE
  next _ X := X.next
  block := FoundBlock.block

/-! ## An index that keeps all entries -/

/-- Entries for blocks of which the first one starts at `base`. -/
def addBlocks (w BLOCK_SIZE : ℕ) (blockIndex : ℕ → ℕ) (base : ℕ) :
    List ℕ → ℕ → ℕ
  | [] => blockIndex
  | block :: blocks =>
      addBlocks w BLOCK_SIZE (Function.update blockIndex base block)
        ((SizeT.bits w).add base BLOCK_SIZE) blocks

/-- The index at which the new block behind `count` others starts. -/
def newBase (w BLOCK_SIZE startTailIndex count : ℕ) : ℕ :=
  let S := SizeT.bits w
  S.add (blockBase BLOCK_SIZE (S.sub startTailIndex 1))
    ((count + 1) * BLOCK_SIZE)

/-- A map from the index at which a block starts. -/
abbrev ofMap : IndexKind :=
  ⟨ℕ → ℕ, Unit, ℕ, ℕ⟩

/-- There is always room, and an enqueue adds its entries when it publishes
them. -/
def complete (w BLOCK_SIZE : ℕ) : BlockIndex ofMap where
  new _ := 0
  original _ := ()
  restore _ blockIndex := blockIndex
  hasRoom _ := true
  newBlockIndex original blockIndex := (original, blockIndex)
  useSlot blockIndex := blockIndex
  addEntry _ _ blockIndex := blockIndex
  publish startTailIndex blocks blockIndex :=
    addBlocks w BLOCK_SIZE blockIndex (newBase w BLOCK_SIZE startTailIndex 0)
      blocks
  search index := index
  look blockIndex index := .inr (blockIndex (blockBase BLOCK_SIZE index))
  next index blockIndex _ := blockIndex (blockBase BLOCK_SIZE index)
  block found := found

end Moodycamel
end ConcurrentQueues
