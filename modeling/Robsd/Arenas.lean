import Robsd.Memory

/-!
The arenas of libks (arena.c): frames that are filled from their start, and scopes that
put an arena back to where it was when they were entered. Sizes and addresses have 64
bits. Poisoning, statistics and traces have no effect on what is modelled here.
-/
namespace Robsd.Arenas
open Robsd.Memory

/-- `struct arena_frame`, at the start of its own memory. -/
structure Frame where
  ptr : Nat
  size : Nat
  len : Nat

/-- The memory of a frame. -/
def Frame.region (f : Frame) : Region := ⟨f.ptr,f.size⟩

/-- `struct arena`, the current frame first. -/
structure Arena where
  frames : List Frame
  frameSize : Nat
  poisonSize : Nat
  refs : Nat

/-- `struct arena_scope`. -/
structure Scope where
  frame : Option Nat
  frameLen : Nat
  id : Nat

/-- A program with an arena: the memory, the arena, its scopes with the innermost first,
    and whether `arena_free` was called. -/
structure State where
  heap : Heap
  arena : Arena
  scopes : List Scope
  freed : Bool

/-- Why the program is not there anymore: an access outside of allocated memory, an
    allocation from a scope that is not the innermost one, one that is too large, no
    memory, a pointer that is not aligned. -/
inductive Stop where
  | fault
  | trap
  | large
  | memory
  | misaligned
  deriving DecidableEq

/-- What `malloc` returns for a size in the course of one call. -/
abbrev Room := Nat → Option Nat

/-- An access that may fault. -/
def orFault {α : Type} : Option α → Except Stop α
  | none => .error .fault
  | some a => .ok a

def maxalign : Nat := 8

/-- `sizeof(struct arena_frame)`. -/
def frameHeader : Nat := 32

/-- `align_address`. -/
def alignAddress (poison addr : Nat) : Nat :=
  let up := (addr + (maxalign-1)) % 2^64 / maxalign * maxalign
  if 0 < poison ∧ (up + 2^64 - addr) % 2^64 < poison then (poison + up) % 2^64 else up

/-- `arena_push`: the place and the frame after it. -/
def arenaPush (poison : Nat) (frame : Frame) (size : Nat) : Option (Nat × Frame) :=
  let newlen := frame.len + size
  if 2^64 ≤ newlen then none
  else if frame.size < newlen then none
  else
    let aligned := alignAddress poison newlen
    some (frame.ptr + frame.len,{ frame with len := if frame.size < aligned then frame.size else aligned })

/-- The arena with other frames. -/
def State.withFrames (s : State) (frames : List Frame) : State := { s with arena := { s.arena with frames } }

/-- `arena_frame_alloc`. -/
def arenaFrameAlloc (s : State) (frameSize : Nat) (room : Room) : Except Stop (Bool × State) :=
  match room frameSize with
  | none => .ok (false,s)
  | some ptr =>
    let heap := s.heap.alloc ⟨ptr,frameSize⟩
    match arenaPush s.arena.poisonSize ⟨ptr,frameSize,0⟩ frameHeader with
    | none => (orFault (heap.free ptr)).map fun heap => (false,{ s with heap })
    | some (_,frame) => .ok (true,{ s with heap }.withFrames (frame :: s.arena.frames))

/-- The size of a new frame, doubled until it is large enough; none where it would not
    fit into 64 bits. It is never zero. -/
def growFrameSize (total frameSize : Nat) : Option Nat :=
  if frameSize < total then
    if frameSize = 0 ∨ 2^64 ≤ 2 * frameSize then none else growFrameSize total (2 * frameSize)
  else
    some frameSize
termination_by total - frameSize

/-- The allocation in a new frame. -/
def arenaMallocFrame (s : State) (size : Nat) (room : Room) : Except Stop (Nat × State) :=
  let total := size + frameHeader
  if 2^64 ≤ total ∨ 2^64 ≤ s.arena.poisonSize + total then .error .large
  else match growFrameSize (s.arena.poisonSize + total) s.arena.frameSize with
    | none => .error .large
    | some frameSize =>
      match arenaFrameAlloc s frameSize room with
      | .error e => .error e
      | .ok (false,_) => .error .memory
      | .ok (true,s) =>
        match s.arena.frames with
        | [] => .error .fault
        | f :: fs =>
          match arenaPush s.arena.poisonSize f size with
          | none => .error .memory
          | some (ptr,f) => .ok (ptr,s.withFrames (f :: fs))

/-- `arena_malloc` from a scope with an id, which is validated first. -/
def arenaMalloc (s : State) (id size : Nat) (room : Room) : Except Stop (Nat × State) :=
  if id ≠ s.arena.refs then .error .trap
  else match s.arena.frames with
    | [] => .error .fault
    | f :: fs =>
      match arenaPush s.arena.poisonSize f size with
      | some (ptr,f) => .ok (ptr,s.withFrames (f :: fs))
      | none => arenaMallocFrame s size room

/-- An allocation that is filled. -/
def arenaFill (s : State) (id size : Nat) (room : Room) (bs : List UInt8) : Except Stop (Nat × State) :=
  match arenaMalloc s id size room with
  | .error e => .error e
  | .ok (ptr,s) => (orFault (s.heap.put ptr bs)).map fun heap => (ptr,{ s with heap })

/-- `arena_calloc`. -/
def arenaCalloc (s : State) (id nmemb size : Nat) (room : Room) : Except Stop (Nat × State) :=
  if 2^64 ≤ nmemb * size then .error .large else arenaFill s id (nmemb * size) room (List.replicate (nmemb * size) 0)

/-- `arena_strndup` of the bytes of a string. -/
def arenaStrndup (s : State) (id : Nat) (src : List UInt8) (room : Room) : Except Stop (Nat × State) :=
  if 2^64 ≤ src.length + 1 then .error .large else arenaFill s id (src.length + 1) room (src ++ [0])

/-- `arena_realloc_fast`: the frames where the allocation stays in its place. -/
def arenaReallocFast (s : State) (ptr oldSize newSize : Nat) : Option (List Frame) :=
  if newSize ≤ oldSize then some s.arena.frames
  else match s.arena.frames with
    | [] => none
    | f :: fs =>
      if alignAddress s.arena.poisonSize ((ptr + oldSize) % 2^64) ≠ f.ptr + f.len then none
      else match arenaPush s.arena.poisonSize { f with len := (ptr + 2^64 - f.ptr) % 2^64 } newSize with
        | none => none
        | some (_,f) => some (f :: fs)

/-- `arena_realloc`, of no allocation yet or of one. -/
def arenaRealloc (s : State) (id : Nat) (ptr : Option Nat) (oldSize newSize : Nat) (room : Room) :
    Except Stop (Nat × State) :=
  match ptr with
  | none => arenaMalloc s id newSize room
  | some ptr =>
    if ptr % maxalign ≠ 0 then .error .misaligned
    else match arenaReallocFast s ptr oldSize newSize with
      | some frames => .ok (ptr,s.withFrames frames)
      | none =>
        match arenaMalloc s id newSize room with
        | .error e => .error e
        | .ok (newPtr,s) =>
          match s.heap.load ⟨ptr,oldSize⟩ with
          | none => .error .fault
          | some bs => (orFault (s.heap.put newPtr bs)).map fun heap => (newPtr,{ s with heap })

/-- `arena_scope_enter`. -/
def arenaScopeEnter (s : State) : Except Stop State :=
  match s.arena.frames with
  | [] => .error .fault
  | f :: _ => .ok { s with
      arena := { s.arena with refs := s.arena.refs+1 }
      scopes := ⟨some f.ptr,f.len,s.arena.refs+1⟩ :: s.scopes }

/-- The frames in front of the one of the scope are freed. -/
def freeFrames (last : Option Nat) : List Frame → Heap → Except Stop (List Frame × Heap)
  | [], heap => .ok ([],heap)
  | f :: fs, heap =>
    if some f.ptr = last then .ok (f :: fs,heap)
    else match heap.free f.ptr with
      | none => .error .fault
      | some heap => freeFrames last fs heap

/-- The length of the current frame is put back. -/
def resetLen (frameLen : Nat) : List Frame → List Frame
  | [] => []
  | f :: fs => { f with len := if frameLen ≤ f.len then frameLen else 0 } :: fs

/-- `arena_scope_leave`. -/
def arenaScopeLeave (s : State) (scope : Scope) : Except Stop State :=
  (freeFrames (if s.arena.refs = 1 then none else scope.frame) s.arena.frames s.heap).map fun (frames,heap) =>
    { s with heap, arena := { s.arena with frames := resetLen scope.frameLen frames, refs := s.arena.refs-1 } }

/-- `arena_free`. -/
def arenaFree (s : State) : Except Stop State :=
  if 1 < s.arena.refs then .ok { s with arena := { s.arena with refs := s.arena.refs-1 }, freed := true }
  else (arenaScopeLeave s ⟨none,0,0⟩).map fun s => { s with freed := true }

/-- `arena_alloc`, with the size of a page. -/
def arenaAlloc (heap : Heap) (pageSize poisonSize : Nat) (room : Room) : Except Stop State :=
  match arenaFrameAlloc ⟨heap,⟨[],16*pageSize,poisonSize,1⟩,[],false⟩ (16*pageSize) room with
  | .error e => .error e
  | .ok (false,_) => .error .memory
  | .ok (true,s) => .ok s

/-- A call of a function of the arena, or a write of the program. A scope is given by the
    number of those that are nested in it. -/
inductive Call where
  | enter
  | leave
  | malloc (i size : Nat) (room : Room)
  | calloc (i nmemb size : Nat) (room : Room)
  | strndup (i : Nat) (src : List UInt8) (room : Room)
  | realloc (i : Nat) (ptr : Option Nat) (oldSize newSize : Nat) (room : Room)
  | write (addr : Nat) (bs : List UInt8)
  | free

/-- A call through an active scope. -/
def State.inScope (s : State) (i : Nat) (f : Nat → Except Stop (Nat × State)) : Except Stop (Option Nat × State) :=
  match s.scopes[i]? with
  | none => .error .fault
  | some scope => (f scope.id).map fun (ptr,s) => (some ptr,s)

/-- The address that a call returns and the state after it. -/
def call (s : State) : Call → Except Stop (Option Nat × State)
  | .enter => (arenaScopeEnter s).map fun s => (none,s)
  | .leave =>
    match s.scopes with
    | [] => .error .fault
    | scope :: scopes => (arenaScopeLeave s scope).map fun s => (none,{ s with scopes })
  | .malloc i size room => s.inScope i fun id => arenaMalloc s id size room
  | .calloc i nmemb size room => s.inScope i fun id => arenaCalloc s id nmemb size room
  | .strndup i src room => s.inScope i fun id => arenaStrndup s id src room
  | .realloc i ptr oldSize newSize room => s.inScope i fun id => arenaRealloc s id ptr oldSize newSize room
  | .write addr bs => (orFault (s.heap.put addr bs)).map fun heap => (none,{ s with heap })
  | .free => (arenaFree s).map fun s => (none,s)

end Robsd.Arenas
