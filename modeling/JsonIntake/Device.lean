import JsonIntake.Size

/-!
# Device buffers

A device buffer is one contiguous allocation that grows at its end.  Stages
hand buffers on by value: ingestion fills one, quote normalization turns it
into another, and the tokenizer consumes that.  A pool holds a fixed number of
scratch buffers and hands them out in turn, each one cleared.
-/

namespace JsonIntake

/-! ## Buffers -/

/-- A contiguous sequence of bytes that grows at its end. -/
structure Buffer where
  bytes : Array UInt8
deriving DecidableEq

namespace Buffer

def empty : Buffer := ⟨#[]⟩

/-- Largest number of bytes that one allocation may hold. -/
def maxCapacity : Nat := Size.half - 1

/-- An empty buffer with room for `capacity` bytes, if an allocation may be
that large. -/
def withCapacity? (capacity : Nat) : Option Buffer :=
  if capacity ≤ maxCapacity then some empty else none

def ofList (bytes : List UInt8) : Buffer := ⟨bytes.toArray⟩

def toList (buffer : Buffer) : List UInt8 := buffer.bytes.toList

def size (buffer : Buffer) : Nat := buffer.bytes.size

def isEmpty (buffer : Buffer) : Bool := buffer.size == 0

def clear (_ : Buffer) : Buffer := empty

def push (buffer : Buffer) (byte : UInt8) : Buffer :=
  ⟨buffer.bytes.push byte⟩

/-- Append host bytes. -/
def append (buffer : Buffer) (bytes : List UInt8) : Buffer :=
  ⟨bytes.foldl Array.push buffer.bytes⟩

/-- Append the bytes `[start, stop)` of another buffer, which has to contain
them. -/
def appendSlice? (buffer source : Buffer) (start stop : Nat) :
    Option Buffer :=
  if start ≤ stop ∧ stop ≤ source.size then
    some (buffer.append ((source.toList.drop start).take (stop - start)))
  else
    none

@[simp] theorem toList_empty : empty.toList = [] := rfl

@[simp] theorem toList_ofList (bytes : List UInt8) :
    (ofList bytes).toList = bytes := by
  simp [ofList, toList]

@[simp] theorem toList_clear (buffer : Buffer) : buffer.clear.toList = [] :=
  rfl

@[simp] theorem toList_push (buffer : Buffer) (byte : UInt8) :
    (buffer.push byte).toList = buffer.toList ++ [byte] := by
  simp [push, toList]

@[simp] theorem toList_append (buffer : Buffer) (bytes : List UInt8) :
    (buffer.append bytes).toList = buffer.toList ++ bytes := by
  obtain ⟨content⟩ := buffer
  induction bytes generalizing content with
  | nil => simp [append]
  | cons byte rest ih =>
      have hrest := ih (content.push byte)
      simp only [append, toList, List.foldl_cons] at hrest ⊢
      rw [hrest]
      simp

@[simp] theorem length_toList (buffer : Buffer) :
    buffer.toList.length = buffer.size := by
  simp [toList, size]

@[simp] theorem size_push (buffer : Buffer) (byte : UInt8) :
    (buffer.push byte).size = buffer.size + 1 := by
  simp [push, size]

theorem ext_toList {buffer other : Buffer}
    (hbytes : buffer.toList = other.toList) : buffer = other := by
  obtain ⟨bytes⟩ := buffer
  obtain ⟨others⟩ := other
  exact congrArg Buffer.mk (Array.toList_inj.mp hbytes)

end Buffer

/-! ## Scratch buffers -/

/-- At least one scratch buffer, and the index of the one to hand out next. -/
structure BufferPool where
  buffers : Array Buffer
  next : Nat

namespace BufferPool

/-- A pool of `count` empty buffers, but at least one, each with room for
`capacity` bytes. -/
def make? (count capacity : Nat) : Option BufferPool :=
  (Buffer.withCapacity? capacity).map fun buffer =>
    ⟨Array.replicate (max count 1) buffer, 0⟩

def size (pool : BufferPool) : Nat := pool.buffers.size

def isEmpty (pool : BufferPool) : Bool := pool.size == 0

/-- Clear the buffer whose turn it is and pass the turn on; the result names
the buffer that was handed out. -/
def advance (pool : BufferPool) : Nat × BufferPool :=
  (pool.next,
    { buffers := pool.buffers.modify pool.next Buffer.clear
      next := (pool.next + 1) % pool.size })

def get (pool : BufferPool) (index : Nat) : Buffer :=
  pool.buffers.getD index Buffer.empty

/-- Append bytes to one of the buffers. -/
def fill (pool : BufferPool) (index : Nat) (bytes : List UInt8) :
    BufferPool :=
  { pool with buffers := pool.buffers.modify index (·.append bytes) }

end BufferPool

end JsonIntake
