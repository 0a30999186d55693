import Wbr1310.Comlib.Dlist

/-!
# The block pool of `comlib/mem_helper.c`

The pool keeps free and used blocks of sizes `2^s` on intrusive lists, one pair
of lists for each size class, and the super blocks they are carved from on the
free list of class zero. Headers live at addresses; the bytes that clients read
and write are a separate memory, because clients stay inside the usable bytes.

## Implementation notes

`superBlocks` records what `malloc` returned and which class it was carved
for. The C code does not keep it; it names the carved blocks. `malloc` itself
is a parameter: it maps a requested size to an address or to null. The walks
over intrusive lists take fuel, and an operation that dereferences a null or
foreign pointer returns `none`.
-/

namespace Wbr1310.Comlib.MemHelper

open Lib Links

/-- `MEM_POOLS_COUNT`. -/
abbrev memPoolsCount : Nat := 22

/-- A size class; class `s` holds blocks of `2^s` usable bytes. -/
abbrev SizeClass := Fin memPoolsCount

instance : NeZero memPoolsCount := ⟨by decide⟩

/-- A pool list: `mpool_free_list[s]` or `mpool_used_list[s]`. -/
inductive ListId
  | free (s : SizeClass)
  | used (s : SizeClass)
  deriving DecidableEq

/-- What a list pointer can point to: a list head or the header of a block. -/
inductive Node
  | head (l : ListId)
  | hdr (addr : Nat)
  deriving DecidableEq

/-- `sizeof(memblk_hdr_t)` with tracking enabled: two links, flags, file and line. -/
def hdrSize : Nat := 20

/-- `mpool_increase`: how many blocks one super block of the class is carved into. -/
def mpoolIncrease (s : SizeClass) : Nat :=
  [0, 0, 8, 8, 8, 8, 8, 8, 8, 8, 8, 8, 4, 2, 1, 1, 1, 1, 1, 1, 1, 1].getD s.val 0

def signMask : UInt32 := 0xffff0000

def sizeMask : UInt32 := 0x0000ffff

def memblkSign : UInt32 := 0x55aa0000

def superBlockSign : UInt32 := 0x5a5a0000

def maxTrackingFiles : Nat := 512

/-- The static data of the module together with the memory it manages. -/
structure Pool where
  links : Links Node
  flags : Nat → UInt32
  file : Nat → Nat
  line : Nat → Int
  mem : Nat → UInt8
  mpoolUsed : SizeClass → Nat
  mpoolFree : SizeClass → Nat
  mpoolMaxUsed : SizeClass → Nat
  mpoolCount : SizeClass → Nat
  mhFiles : Nat → Option (List UInt8)
  superBlocks : List (Nat × SizeClass)

def Pool.bss : Pool where
  links := { next := fun _ => none, prev := fun _ => none }
  flags := fun _ => 0
  file := fun _ => 0
  line := fun _ => 0
  mem := fun _ => 0
  mpoolUsed := fun _ => 0
  mpoolFree := fun _ => 0
  mpoolMaxUsed := fun _ => 0
  mpoolCount := fun _ => 0
  mhFiles := fun _ => none
  superBlocks := []

def memptr (hdr : Nat) : Nat := hdr + hdrSize

def memhdr (ptr : Nat) : Nat := ptr - hdrSize

def memblkCheck (flags : UInt32) : Bool := flags &&& signMask == memblkSign

def memblkSize (flags : UInt32) : Nat := (flags &&& sizeMask).toNat

/-- The flags word of a carved block of class `s`. -/
def memblkFlags (s : SizeClass) : UInt32 := memblkSign ||| (UInt32.ofNat s.val &&& sizeMask)

/-- The size of one block of class `s` with its header. -/
def blockSize (s : SizeClass) : Nat := hdrSize + 2 ^ s.val

/-- The size of a super block of class `s`. -/
def requiredSize (s : SizeClass) : Nat := hdrSize + blockSize s * mpoolIncrease s

theorem memblkCheck_flags : ∀ s : SizeClass, memblkCheck (memblkFlags s) = true := by
  decide

theorem memblkSize_flags : ∀ s : SizeClass, memblkSize (memblkFlags s) = s.val := by
  decide

theorem memhdr_memptr (a : Nat) : memhdr (memptr a) = a := Nat.add_sub_cancel a hdrSize

/-- The header addresses of the blocks carved from one super block. -/
def carvedFrom (b : Nat × SizeClass) : List (Nat × SizeClass) :=
  (List.range (mpoolIncrease b.2)).map fun k => (b.1 + hdrSize + k * blockSize b.2, b.2)

section

variable (malloc : Nat → Option Nat) (s : SizeClass) (st : Pool)

/-- The header address and the class of every block carved so far. -/
def carved : List (Nat × SizeClass) := st.superBlocks.flatMap carvedFrom

def mhInitAll : Pool :=
  { st with
    links :=
      { next := fun n => match n with
          | .head l => some (.head l)
          | .hdr a => st.links.next (.hdr a)
        prev := fun n => match n with
          | .head l => some (.head l)
          | .hdr a => st.links.prev (.hdr a) }
    mpoolUsed := fun _ => 0
    mpoolFree := fun _ => 0
    mpoolMaxUsed := fun _ => 0
    mpoolCount := fun _ => 0
    mhFiles := fun _ => none
    superBlocks := [] }

/-- The loop of `alloc_memblk` that links `n` blocks, the first one at `ptr`. -/
def carve (s : SizeClass) : Nat → Nat → Pool → Option Pool
  | 0, _, st => some st
  | n + 1, ptr, st =>
    (dlistAddTail (initDlistHead st.links (.hdr ptr)) (.hdr ptr) (.head (.free s))).bind
      fun links => carve s n (ptr + blockSize s)
        { st with
          links := links
          flags := Function.update st.flags ptr (memblkFlags s)
          mpoolFree := Function.update st.mpoolFree s (st.mpoolFree s + 1) }

def allocMemblk : Option Pool :=
  if 0 < mpoolIncrease s then
    match malloc (requiredSize s) with
    | some ptr =>
      (dlistAddTail (initDlistHead st.links (.hdr ptr)) (.hdr ptr) (.head (.free 0))).bind
        fun links => carve s (mpoolIncrease s) (ptr + hdrSize)
          { st with
            links := links
            flags := Function.update st.flags ptr superBlockSign
            mpoolCount := Function.update st.mpoolCount s (st.mpoolCount s + 1)
            superBlocks := (ptr, s) :: st.superBlocks }
    | none => some st
  else some st

/-- The second half of `memalloc`: move the first free block of the class to its used list. -/
def takeFree : Option (Option Nat × Pool) :=
  if dlistEmpty st.links (.head (.free s)) then some (none, st)
  else
    match st.links.next (.head (.free s)) with
    | some (.hdr a) =>
      (dlistDel st.links (.hdr a)).bind fun links =>
        (dlistAdd links (.hdr a) (.head (.used s))).map fun links =>
          (some a, { st with
            links := links
            mpoolFree := Function.update st.mpoolFree s (st.mpoolFree s - 1)
            mpoolUsed := Function.update st.mpoolUsed s (st.mpoolUsed s + 1)
            mpoolMaxUsed := Function.update st.mpoolMaxUsed s
              (if st.mpoolMaxUsed s < st.mpoolUsed s + 1 then st.mpoolUsed s + 1
               else st.mpoolMaxUsed s) })
    | _ => none

def memalloc : Option (Option Nat × Pool) :=
  (if dlistEmpty st.links (.head (.free s)) then allocMemblk malloc s st else some st).bind
    (takeFree s)

def isEntryInUsed (fuel : Nat) (st : Pool) (hdr : Nat) (s : SizeClass) : Option Bool :=
  (st.links.next (.head (.used s))).bind fun curr =>
    (st.links.search (fun n => n == .hdr hdr) (.head (.used s)) fuel curr).map
      fun n => n == .hdr hdr

/-- The branch of `memfree` that moves a used block to the free list of its class. -/
def giveBack (hdr : Nat) (s : SizeClass) (st : Pool) : Option Pool :=
  (dlistDel st.links (.hdr hdr)).bind fun links =>
    (dlistAdd links (.hdr hdr) (.head (.free s))).map fun links =>
      { st with
        links := links
        mpoolUsed := Function.update st.mpoolUsed s (st.mpoolUsed s - 1)
        mpoolFree := Function.update st.mpoolFree s (st.mpoolFree s + 1) }

/-- `memfree`; the size class is read from the header. -/
def memfree (fuel hdr : Nat) (st : Pool) : Option Pool :=
  if h : memblkSize (st.flags hdr) < memPoolsCount then
    (isEntryInUsed fuel st hdr ⟨memblkSize (st.flags hdr), h⟩).bind fun inUsed =>
      if inUsed then giveBack hdr ⟨memblkSize (st.flags hdr), h⟩ st else some st
  else none

/-- `memblk_tracking`: the first slot that is empty or holds the name; `strdup` may fail. -/
def memblkTracking (strdupOk : Bool) (hdr : Nat) (file : List UInt8) (line : Int) (st : Pool) :
    Pool :=
  let i := ((List.range maxTrackingFiles).find? fun i =>
    st.mhFiles i == none || st.mhFiles i == some file).getD maxTrackingFiles
  { st with
    mhFiles := if i < maxTrackingFiles ∧ st.mhFiles i = none ∧ strdupOk then
        Function.update st.mhFiles i (some file)
      else st.mhFiles
    file := Function.update st.file hdr i
    line := Function.update st.line hdr line }

/-- What the environment of one call decides: the results of `malloc` and
`strdup`, the caller's source position, and the fuel of the list walks. -/
structure Call where
  malloc : Nat → Option Nat
  strdupOk : Bool
  file : List UInt8
  line : Int
  fuel : Nat

/-- The loop of `mh_malloc` over the remaining size classes. -/
def mhMallocLoop (c : Call) (size : Nat) : List SizeClass → Pool → Option (Option Nat × Pool)
  | [], st => some (none, st)
  | i :: rest, st =>
    if size ≤ 2 ^ i.val then
      (memalloc c.malloc i st).bind fun r =>
        match r.1 with
        | some hdr => some (some (memptr hdr), memblkTracking c.strdupOk hdr c.file c.line r.2)
        | none => mhMallocLoop c size rest r.2
    else mhMallocLoop c size rest st

/-- The classes `mh_malloc` tries, from `2^3` upwards. -/
def mallocClasses : List SizeClass := (List.finRange memPoolsCount).drop 3

def mhMalloc (c : Call) (size : Nat) (st : Pool) : Option (Option Nat × Pool) :=
  if 0 < size then mhMallocLoop c size mallocClasses st else some (none, st)

/-- `memcpy` and `memset` on client bytes: the bytes of `src` are stored from `dst` on. -/
def store (dst : Nat) (src : List UInt8) : Pool :=
  { st with mem := fun a =>
      if dst ≤ a ∧ a < dst + src.length then src.getD (a - dst) 0 else st.mem a }

/-- The `n` client bytes from the address on. -/
def load (src n : Nat) : List UInt8 := (List.range n).map fun k => st.mem (src + k)

/-- `mh_strdup`; the string is given without its terminating null byte. -/
def mhStrdup (c : Call) (string : List UInt8) (st : Pool) : Option (Option Nat × Pool) :=
  (mhMalloc c (string.length + 1) st).map fun r =>
    (r.1, match r.1 with
      | some ptr => store r.2 ptr (string ++ [0])
      | none => r.2)

/-- `mh_calloc`; the product is computed in a 32 bit `size_t`. -/
def mhCalloc (c : Call) (nmemb size : Nat) (st : Pool) : Option (Option Nat × Pool) :=
  (mhMalloc c (nmemb * size % 2 ^ 32) st).map fun r =>
    (r.1, match r.1 with
      | some ptr => store r.2 ptr (List.replicate (nmemb * size % 2 ^ 32) 0)
      | none => r.2)

/-- `mh_free`; the null pointer is `none`. -/
def mhFree (fuel : Nat) (ptr : Option Nat) (st : Pool) : Option Pool :=
  match ptr with
  | none => some st
  | some p => if memblkCheck (st.flags (memhdr p)) then memfree fuel (memhdr p) st else some st

def mhRealloc (c : Call) (ptr : Option Nat) (size : Nat) (st : Pool) :
    Option (Option Nat × Pool) :=
  match ptr with
  | some p =>
    if memblkCheck (st.flags (memhdr p)) then
      let mySize := 2 ^ memblkSize (st.flags (memhdr p))
      if mySize < size then
        (mhMalloc c size st).bind fun r =>
          let st' := match r.1 with
            | some q => store r.2 q (load r.2 p mySize)
            | none => r.2
          (mhFree c.fuel (some p) st').map fun st' => (r.1, st')
      else some (some p, st)
    else some (none, st)
  | none => if 0 < size then mhMalloc c size st else some (none, st)

/-- A call of the interface, with its arguments. -/
inductive Op
  | malloc (size : Nat)
  | calloc (nmemb size : Nat)
  | strdup (string : List UInt8)
  | realloc (ptr : Option Nat) (size : Nat)
  | free (ptr : Option Nat)

/-- Execute one call; the result of `mh_free` is void. -/
def exec (c : Call) : Op → Pool → Option (Option Nat × Pool)
  | .malloc size, st => mhMalloc c size st
  | .calloc nmemb size, st => mhCalloc c nmemb size st
  | .strdup string, st => mhStrdup c string st
  | .realloc ptr size, st => mhRealloc c ptr size st
  | .free ptr, st => (mhFree c.fuel ptr st).map fun st => (none, st)

/-- The pointer a call is given is null or was returned by an earlier call. -/
def Op.Allowed (returned : List Nat) : Op → Prop
  | .realloc (some p) _ => p ∈ returned
  | .free (some p) => p ∈ returned
  | _ => True

/-- `malloc` returns memory that overlaps no super block it returned before. -/
def Fresh : Prop :=
  ∀ n a, malloc n = some a → ∀ b ∈ st.superBlocks, a + n ≤ b.1 ∨ b.1 + requiredSize b.2 ≤ a

end

/-- The pools that calls and client writes lead to, with the pointers returned
so far and the pools passed on the way, the newest first. -/
inductive Reach : Pool → List Nat → List Pool → Prop
  | init (st : Pool) : Reach (mhInitAll st) [] [mhInitAll st]
  | call {st returned hist} (c : Call) (op : Op) (r : Option Nat) (st' : Pool)
      (h : Reach st returned hist) (hop : op.Allowed returned) (hf : Fresh c.malloc st)
      (he : exec c op st = some (r, st')) :
      Reach st' (r.toList ++ returned) (st' :: hist)
  | write {st returned hist} (p off : Nat) (bytes : List UInt8)
      (h : Reach st returned hist) (hp : p ∈ returned)
      (hlen : off + bytes.length ≤ 2 ^ memblkSize (st.flags (memhdr p))) :
      Reach (store st (p + off) bytes) returned (store st (p + off) bytes :: hist)

end Wbr1310.Comlib.MemHelper
