import Dj64.Malloc.Layout

/-!
# The `nmalloc` allocator

`nmalloc.inc`, function by function, over the byte memory of `Heap`.  The memory source (`sbrk`
or `djsbrk`, whatever the build links) is a parameter: `sbrk n` is its answer to a request of `n`
bytes during this call, and no call asks twice.  The hooks are left out: `hookptr` is zeroed on
load and `sethook` is not compiled.

A call ends with a `Fault` where the C program would not go on: in `badcallabort`, at an access
through `NULL`, or at an index outside `freehdrs`.
-/

namespace Nmalloc

open ByteMemory

/-- The ways a call can fail to return. -/
inductive Fault
  | badcallabort
  | nullAccess
  | freehdrsBound
  deriving DecidableEq

namespace Target

variable (T : Target)

/-- `freehdrs[b] = m`, with the array bound. -/
def putFreehdr (h : Heap) (b m : ℕ) : Except Fault Heap :=
  if b < T.nflists then .ok (h.setFreehdr b m) else .error .freehdrsBound

/-- `recordnewsbrk`: `MAXSBRKS` is 100. -/
def recordnewsbrk (h : Heap) (bk : ℕ) : Heap :=
  if h.sbrkbgn.length < 100 - 1 then
    if bk ∈ h.sbrkbgn then h else { h with sbrkbgn := h.sbrkbgn ++ [bk] }
  else h

/-- `extractfree`: unlink a block from wherever it stands in its free list. -/
def extractfree (h : Heap) (m : ℕ) : Except Fault Heap := do
  if m = 0 then return h
  let b := size2bucket (T.get h m .sz)
  let mnxtf := T.get h m .nextfree
  let h := if mnxtf = T.none then T.set h m .nextfree 0 else h
  let mprvf := T.get h m .prevfree
  let h := if mprvf = T.none then T.set h m .prevfree 0 else h
  let h := if T.get h m .nextfree ≠ 0 then T.set h (T.get h m .nextfree) .prevfree mprvf else h
  let h ← if T.get h m .prevfree ≠ 0 then .ok (T.set h (T.get h m .prevfree) .nextfree mnxtf)
    else if T.get h m .nextfree ≠ 0 then T.putFreehdr h b mnxtf
    else T.putFreehdr h b 0
  return T.set (T.set h m .prevfree 0) m .nextfree 0

/-- `combinelo`: join a block to the free block below it. -/
def combinelo (h : Heap) (m : ℕ) : Except Fault (ℕ × Heap) := do
  if T.isFree h (T.get h m .prev) then
    let m1 := T.get h m .prev
    if T.get h m1 .next ≠ m then .error .badcallabort
    let h ← T.extractfree h m1
    let h := T.set h m1 .next (T.get h m .next)
    let h := if T.get h m1 .next ≠ 0 then T.set h (T.get h m1 .next) .prev m1 else h
    let h := T.set h m1 .sz (u32 (T.get h m1 .sz + T.get h m .sz))
    return (m1, h)
  else return (m, h)

/-- `combinehi`: join the block above, which is free or `lastsbrk`, to a block. -/
def combinehi (h : Heap) (m : ℕ) : Except Fault Heap := do
  if m ≠ 0 ∧ T.get h m .next ≠ 0 then
    if T.get h (T.get h m .next) .prev ≠ m then .error .badcallabort
    let m1 := T.get h m .next
    let h ← if m1 ≠ h.lastsbrk then T.extractfree h m1 else .ok h
    let h := T.set h m .next (T.get h (T.get h m .next) .next)
    let h := if T.get h m .next ≠ 0 then T.set h (T.get h m .next) .prev m else h
    return T.set h m .sz (u32 (T.get h m .sz + T.get h m1 .sz))
  else return h

/-- The linking half of `mv2freelist`: `m` becomes the head of its list. -/
def linkfree (h : Heap) (m : ℕ) : Except Fault Heap := do
  let b := size2bucket (T.get h m .sz)
  if ¬ b < T.nflists then .error .freehdrsBound
  let hd := h.freehdrs b
  let h := if hd ≠ 0 then T.set (T.set h m .nextfree hd) hd .prevfree m
    else T.set h m .nextfree T.none
  let h := T.set h m .prevfree T.none
  let h := if hd ≠ 0 then T.set h hd .prevfree m else h
  let h := h.setFreehdr b m
  return { h with linked := (m, T.get h m .sz) :: h.linked }

def mv2freelist (h : Heap) (m : ℕ) : Except Fault Heap := do
  if m = 0 then return h
  let h ← if T.isFree h (T.get h m .next) then T.combinehi h m else .ok h
  if h.lastsbrk ≠ 0 ∧ T.get h m .next = h.lastsbrk then
    let h ← T.combinehi h m
    let h := h.setLastsbrk m
    return T.set (T.set h h.lastsbrk .prevfree 0) h.lastsbrk .nextfree 0
  else T.linkfree h m

/-- `rmvfromfree`: take the head of a free list. -/
def rmvfromfree (h : Heap) (m : ℕ) : Except Fault Heap := do
  if m = 0 then return h
  let b := size2bucket (T.get h m .sz)
  if ¬ b < T.nflists then .error .freehdrsBound
  if m ≠ h.freehdrs b then .error .badcallabort
  let h := if T.get h m .nextfree = T.none then h.setFreehdr b 0
    else T.set (h.setFreehdr b (T.get h m .nextfree)) (T.get h m .nextfree) .prevfree T.none
  return T.set h m .nextfree 0

/-- The loop of `searchfree`: the first non-empty list from `b` on, `b + fuel` if there is none. -/
def scanfree (h : Heap) : ℕ → ℕ → ℕ
  | 0, b => b
  | fuel + 1, b => if h.freehdrs b = 0 then scanfree h fuel (b + 1) else b

/-- `searchfree`: the list to allocate from, 0 if there is none. -/
def searchfree (h : Heap) (szneed : ℕ) : ℕ :=
  let b := size2bucket szneed
  let b := if h.freehdrs b = 0 ∨ T.get h (h.freehdrs b) .sz < szneed then
      scanfree h (T.nflists - (b + 1)) (b + 1)
    else b
  if b < T.nflists then b else 0

/-- `__nmalloc_split`: cut `m` after `sz` bytes.  The result is the higher portion, which the C
code also stores through `mp`. -/
def split (h : Heap) (m sz : ℕ) : Except Fault (ℕ × Heap) := do
  let m1 := m + sz
  if T.get h m .sz < sz + T.dataOffset then .error .badcallabort
  let h := move h m1 m T.dataOffset
  let h := T.set h m1 .prev m
  let h := T.set h m1 .sz (T.get h m .sz - sz)
  let h := T.set h m .next m1
  let h := T.set h m .sz sz
  let h := T.set h m .nextfree 0
  if T.get h m1 .next ≠ 0 then
    if T.get h (T.get h m1 .next) .prev ≠ m then .error .badcallabort
    return (m1, T.set h (T.get h m1 .next) .prev m1)
  return (m1, h)

/-- `__nmalloc_split(&lastsbrk, sz)`: the lower portion is returned, `lastsbrk` moves up. -/
def splitLast (h : Heap) (sz : ℕ) : Except Fault (ℕ × Heap) := do
  let m := h.lastsbrk
  let (m1, h) ← T.split h m sz
  return (m, h.setLastsbrk m1)

/-- The end of `lastsbrk`, where the next answer of the memory source is expected. -/
def expected (h : Heap) : ℕ :=
  if h.lastsbrk ≠ 0 then h.lastsbrk + T.get h h.lastsbrk .sz else 0

/-- The size `extendsbrk` asks for: room to realign and to leave a header, at least `MINSBRK`, and
rounded so that the end of a misaligned `lastsbrk` comes out aligned. -/
def sbrkRequest (h : Heap) (szxtra : ℕ) : ℕ :=
  let szxtra := u32 (szxtra + (2 * align + T.dataOffset))
  let szxtra := if szxtra < minsbrk then minsbrk else szxtra
  let aligndelta := T.expected h % align
  if aligndelta ≠ 0 then u32 (szxtra + (align - aligndelta)) else szxtra

/-- `fakesbrk(szxtra)`, which is `sbrk`; the answer is recorded. -/
def fakesbrk (h : Heap) (sbrk : ℕ → ℕ) (szxtra : ℕ) : ℕ × Heap :=
  (sbrk szxtra, { h with sbrks := h.sbrks ++ [(sbrk szxtra, szxtra)] })

/-- The branch of `extendsbrk` for an unexpected address: the old `lastsbrk` goes to the free
lists and a new one is set up at the aligned address. -/
def newLastsbrk (h : Heap) (m szxtra : ℕ) : Except Fault (ℕ × Heap) := do
  let alignerr := m % align
  let aligndelta := if alignerr ≠ 0 then align - alignerr else 0
  let m := m + aligndelta
  if m = 0 then .error .nullAccess
  let h := T.set h m .sz (szxtra - aligndelta)
  let h := T.set (T.set h m .next 0) m .prev 0
  let h := T.set h m .nextfree 0
  let h ← T.mv2freelist h h.lastsbrk
  return (m, recordnewsbrk (h.setLastsbrk m) m)

/-- `extendsbrk`: `NULL` if the source answers `(void *)-1`. -/
def extendsbrk (h : Heap) (sbrk : ℕ → ℕ) (szxtra : ℕ) : Except Fault (ℕ × Heap) := do
  let szxtra := T.sbrkRequest h szxtra
  let expected := T.expected h
  let (m, h) := fakesbrk h sbrk szxtra
  if m = T.sizeMod - 1 then return (0, h)
  else if m = expected then
    if h.lastsbrk = 0 then .error .nullAccess
    return (h.lastsbrk, T.set h h.lastsbrk .sz (u32 (T.get h h.lastsbrk .sz + szxtra)))
  else T.newLastsbrk h m szxtra

/-- Take the head `m1` of a free list and give back what is left of it; the allocation step shared
by `nmalloc` and `nrealloc`. -/
def takefree (h : Heap) (b szneed : ℕ) : Except Fault (ℕ × Heap) := do
  let m1 := h.freehdrs b
  let h ← T.rmvfromfree h m1
  if T.get h m1 .sz < szneed + T.minsave then return (m1, h)
  else
    let (m2, h) ← T.split h m1 szneed
    let h ← T.mv2freelist h m2
    return (m1, h)

/-- The block `nmalloc` allocates for a rounded size below the bound, 0 for none. -/
def allocblock (h : Heap) (sbrk : ℕ → ℕ) (szneed : ℕ) : Except Fault (ℕ × Heap) := do
  let b := T.searchfree h szneed
  if b ≠ 0 then T.takefree h b szneed
  else if h.lastsbrk ≠ 0 ∧ szneed + T.dataOffset ≤ T.get h h.lastsbrk .sz then
    T.splitLast h szneed
  else
    let (m1, h) ← T.extendsbrk h sbrk szneed
    if m1 ≠ 0 then
      if T.get h m1 .sz < szneed + T.minsave then return (m1, h)
      else T.splitLast h szneed
    else return (0, h)

def nmalloc (h : Heap) (sbrk : ℕ → ℕ) (size : ℕ) : Except Fault (ℕ × Heap) := do
  let sz := if size = 0 then size + 1 else size
  let szneed := T.roundup sz
  if szneed < oversize then
    let (m, h) ← T.allocblock h sbrk szneed
    if m ≠ 0 then return (m + T.dataOffset, h)
    else return (0, h)
  else return (0, h)

def dofree (h : Heap) (m : ℕ) : Except Fault Heap := do
  let h := T.set (T.set h m .prevfree T.none) m .nextfree T.none
  let h ← if T.isFree h (T.get h m .next) then T.combinehi h m else .ok h
  let (m, h) ← if T.isFree h (T.get h m .prev) then T.combinelo h m else .ok (m, h)
  if h.lastsbrk ≠ 0 ∧ h.lastsbrk = T.get h m .prev then return h
  else T.mv2freelist h m

def nfree (h : Heap) (ptr : ℕ) : Except Fault Heap := do
  if ptr ≠ 0 then
    let m := ptr - T.dataOffset
    if T.isFree h m || T.fouled h m then .error .badcallabort
    else T.dofree h m
  else return h

/-- `memcpy(PTR(dst), PTR(m), m->sz - DATAOFFSET)`, the copy of the user data of a block. -/
def movedata (h : Heap) (dst m : ℕ) : Heap :=
  move h (dst + T.dataOffset) (m + T.dataOffset) (T.get h m .sz - T.dataOffset)

def mv2lastsbrk (h : Heap) (m szneed : ℕ) : Except Fault (ℕ × Heap) := do
  let (m1, h) ← T.splitLast h szneed
  let h := T.movedata h m1 m
  let h ← T.dofree h m
  return (m1, h)

/-- The step after `nrealloc` has a block that is large enough: what exceeds the need goes back to
the free lists. -/
def trim (h : Heap) (m szneed : ℕ) : Except Fault (ℕ × Heap) := do
  if T.minsave ≤ T.get h m .sz - szneed then
    let (m1, h) ← T.split h m szneed
    let h ← T.mv2freelist h m1
    return (m, h)
  else return (m, h)

/-- The branch of `nrealloc` that grows a block downwards over its free lower neighbour. -/
def growlo (h : Heap) (m szneed : ℕ) : Except Fault (ℕ × Heap) := do
  let m1 := T.get h m .prev
  let h ← T.extractfree h m1
  let h := T.set h m1 .sz (u32 (T.get h m1 .sz + T.get h m .sz))
  let h := T.set h m1 .next (T.get h m .next)
  let h := if T.get h m1 .next ≠ 0 then T.set h (T.get h m1 .next) .prev m1 else h
  let h := T.movedata h m1 m
  T.trim h m1 szneed

/-- The branches of `nrealloc` that use an adjacent `lastsbrk`: the two blocks are joined and cut
again, and the higher portion is the new `lastsbrk`. -/
def growlast (h : Heap) (m szneed : ℕ) : Except Fault (ℕ × Heap) := do
  let h ← T.combinehi h m
  let (m1, h) ← T.split h m szneed
  return (m, h.setLastsbrk m1)

/-- The growing branches of `nrealloc`, in the order of the source, 0 for failure. -/
def growblock (h : Heap) (sbrk : ℕ → ℕ) (m szneed : ℕ) : Except Fault (ℕ × Heap) := do
  let nxt := T.get h m .next
  let prv := T.get h m .prev
  if T.isFree h nxt ∧ szneed ≤ u32 (T.get h m .sz + T.get h nxt .sz) then
    let h ← T.combinehi h m
    T.trim h m szneed
  else if h.lastsbrk = nxt ∧ szneed + T.minsave ≤ u32 (T.get h m .sz + T.get h h.lastsbrk .sz) then
    T.growlast h m szneed
  else if T.isFree h prv ∧ szneed ≤ u32 (T.get h m .sz + T.get h prv .sz) then
    T.growlo h m szneed
  else if T.searchfree h szneed ≠ 0 then
    let (m2, h) ← T.takefree h (T.searchfree h szneed) szneed
    let h := T.movedata h m2 m
    let h ← T.dofree h m
    return (m2, h)
  else if h.lastsbrk ≠ 0 ∧ szneed + T.minsave ≤ T.get h h.lastsbrk .sz then
    T.mv2lastsbrk h m szneed
  else
    let (m1, h) ← T.extendsbrk h sbrk szneed
    if m1 ≠ 0 then
      if h.lastsbrk = T.get h m .next then T.growlast h m szneed
      else T.mv2lastsbrk h m szneed
    else return (0, h)

def nrealloc (h : Heap) (sbrk : ℕ → ℕ) (ptr size : ℕ) : Except Fault (ℕ × Heap) := do
  if ptr = 0 then T.nmalloc h sbrk size
  else
    let m := ptr - T.dataOffset
    let sz := if size = 0 then size + 1 else size
    let szneed := T.roundup sz
    if T.isFree h m || T.fouled h m then .error .badcallabort
    else if szneed ≤ T.get h m .sz then
      let (m, h) ← T.trim h m szneed
      return (m + T.dataOffset, h)
    else if oversize < szneed then return (0, h)
    else
      let (m, h) ← T.growblock h sbrk m szneed
      if m ≠ 0 then return (m + T.dataOffset, h)
      else return (0, h)

def ncalloc (h : Heap) (sbrk : ℕ → ℕ) (n s : ℕ) : Except Fault (ℕ × Heap) := do
  if n = 0 ∨ s < (T.sizeMod - 1) / n then
    let sz := n * s % T.sizeMod
    let (result, h) ← T.nmalloc h sbrk sz
    if result ≠ 0 then return (result, { h with mem := fill h.mem result sz 0 })
    else return (0, h)
  else return (0, h)

end Target

end Nmalloc
