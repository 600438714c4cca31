import Pronto.Alloc.GlobalAlloc
import Pronto.Alloc.Layout

/-!
# The heap as a whole

The blocks of all free lists of all objects, with the chunks in each of them, and the chunks that are
larger than a block. `ExactBitmap` ties the page bitmap to them: the bit of a page is set if and only
if a used chunk has a byte on the page.
-/

namespace Pronto

/-- The blocks of the free lists with their chunks, and the chunks that are larger than a block. -/
structure HeapLayout where
  blocks : List ℕ
  layout : ℕ → List Chunk
  jumbos : List Chunk

/-- A chunk in use. -/
def HeapLayout.IsUsed (H : HeapLayout) (k : Chunk) : Prop :=
  (∃ b ∈ H.blocks, k ∈ H.layout b ∧ k.used = true) ∨ k ∈ H.jumbos

/-- The headers describe the layout, in the memory up to `limit`. -/
structure HeapOk (hdr : ℕ → ChunkHeader) (limit : ℕ) (H : HeapLayout) : Prop where
  nodup : H.blocks.Nodup
  aligned : ∀ b ∈ H.blocks, b % blockSize = 0 ∧ baseAddress ≤ b ∧ b + blockSize ≤ limit
  blockOk : ∀ b ∈ H.blocks, BlockOk none hdr b (H.layout b)
  jumbo : ∀ k ∈ H.jumbos, k.addr % blockSize = 0 ∧ baseAddress ≤ k.addr ∧ k.addr + k.size ≤ limit ∧
    blockSize < k.size ∧ (hdr k.addr).size = k.size ∧ (hdr k.addr).used = true
  apart : ∀ k ∈ H.jumbos, ∀ b ∈ H.blocks, b + blockSize ≤ k.addr ∨ k.addr + k.size ≤ b
  jumbosApart : H.jumbos.Pairwise fun k k' =>
    k.addr + k.size ≤ k'.addr ∨ k'.addr + k'.size ≤ k.addr

/-- The bit of a page. -/
def pageSet (bitmap : ℕ → BitVec 64) (page : ℕ) : Bool := (bitmap (page / 64)).getLsbD (page % 64)

/-- The chunk has a byte on the page. -/
def Chunk.Overlaps (k : Chunk) (page : ℕ) : Prop :=
  k.addr < baseAddress + (page + 1) * bitmapGranularity ∧
    baseAddress + page * bitmapGranularity < k.addr + k.size

/-- The bit of a page is set if and only if a used chunk has a byte on the page. -/
def ExactBitmap (bitmap : ℕ → BitVec 64) (H : HeapLayout) : Prop :=
  ∀ page, pageSet bitmap page = true ↔ ∃ k, H.IsUsed k ∧ k.Overlaps page

end Pronto
