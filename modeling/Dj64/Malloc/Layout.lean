import Dj64.Lib.ByteMemory

/-!
# The block header of the `nmalloc` allocator

`nmalcdef.h`: every block starts with a `memblock` header of five fields, `prev`, `next`, `sz`,
`nextfree`, `prevfree`.  With `SAVEMEMORY` the last one exists only in free blocks: it lies over
the first bytes of the user data, so the data starts at `offsetof(memblock, prevfree)`.

The 64-bit build (dj64) and the 32-bit build (dj32) differ in the size of a pointer, and with it
in `size_t`; `sz` is a 32-bit `ulong` in both.  A `Target` carries the pointer size and the
address `NONE`, that is `&freehdrs[1]`, which ends the free lists in place of `NULL`.

The two ghost lists of `Heap` are read by no function: `sbrks` records what the memory source was
asked for and what it answered, `linked` the blocks `mv2freelist` linked and their sizes.
-/

namespace Nmalloc

open ByteMemory

/-- The compilation target: `sizeof(void *)` and the address of `freehdrs[1]`. -/
structure Target where
  ptr : ℕ
  none : ℕ
  ptr_cases : ptr = 4 ∨ ptr = 8
  none_pos : none ≠ 0
  none_lt : none < 256 ^ ptr

/-- The fields of `struct memblock`. -/
inductive Field
  | prev
  | next
  | sz
  | nextfree
  | prevfree
  deriving DecidableEq

def align : ℕ := 16

def minsbrk : ℕ := 1024

/-- `(ulong)(INT_MAX - 65536)`, the bound on an allocation. -/
def oversize : ℕ := 2147483647 - 65536

/-- Truncation to the 32-bit `ulong`. -/
def u32 (x : ℕ) : ℕ := x % 2 ^ 32

namespace Target

variable (T : Target)

/-- One more than the largest `size_t`. -/
def sizeMod : ℕ := 256 ^ T.ptr

def nflists : ℕ := 8 * T.ptr

def dataOffset : ℕ := 4 * T.ptr

def minsave : ℕ := align + T.dataOffset

/-- The end of a free block's header: `offsetof(memblock, prevfree) + sizeof(memblock *)`. -/
def freeHeader : ℕ := 5 * T.ptr

def offset : Field → ℕ
  | .prev => 0
  | .next => T.ptr
  | .sz => 2 * T.ptr
  | .nextfree => 3 * T.ptr
  | .prevfree => 4 * T.ptr

/-- `sizeof` of a field: `ulong` is four bytes in both builds. -/
def width : Field → ℕ
  | .sz => 4
  | _ => T.ptr

/-- `roundup`: `size_t` arithmetic, the result truncated to `ulong`. -/
def roundup (sz : ℕ) : ℕ :=
  u32 (((sz + (align - 1)) % T.sizeMod / align * align + T.dataOffset) % T.sizeMod)

end Target

/-- The loop of `size2bucket`; a `ulong` is exhausted after 32 shifts. -/
def size2bucketLoop : ℕ → ℕ → ℕ → ℕ
  | 0, _, b => b
  | fuel + 1, sz, b => if sz = 0 then b else size2bucketLoop fuel (sz / 2) (b + 1)

/-- `size2bucket`: the number of significant bits. -/
def size2bucket (sz : ℕ) : ℕ := size2bucketLoop 32 sz 0

/-- `struct nm_state` with the memory it describes.  `freehdrs 0` is `lastsbrk`. -/
structure Heap where
  mem : Mem
  freehdrs : ℕ → ℕ
  sbrkbgn : List ℕ
  sbrks : List (ℕ × ℕ)
  linked : List (ℕ × ℕ)

namespace Heap

def lastsbrk (h : Heap) : ℕ := h.freehdrs 0

def setFreehdr (h : Heap) (b m : ℕ) : Heap := { h with freehdrs := Function.update h.freehdrs b m }

def setLastsbrk (h : Heap) (m : ℕ) : Heap := h.setFreehdr 0 m

end Heap

/-- A zeroed `nm_state`: nothing has been obtained yet. -/
def initial (mem : Mem) : Heap := ⟨mem, fun _ => 0, [], [], []⟩

namespace Target

variable (T : Target)

def get (h : Heap) (m : ℕ) (f : Field) : ℕ := load h.mem (m + T.offset f) (T.width f)

def set (h : Heap) (m : ℕ) (f : Field) (v : ℕ) : Heap :=
  { h with mem := store h.mem (m + T.offset f) (T.width f) v }

/-- `memcpy(dst, src, n)`, `memmove(dst, src, n)`. -/
def move (h : Heap) (dst src n : ℕ) : Heap := { h with mem := copy h.mem dst src n }

def isFree (h : Heap) (m : ℕ) : Bool :=
  m ≠ 0 && m ≠ T.none && T.get h m .nextfree ≠ 0 && T.get h m .prevfree ≠ 0

def fouled (h : Heap) (m : ℕ) : Bool := h.lastsbrk = 0 || T.get h m .nextfree ≠ 0

end Target

end Nmalloc
