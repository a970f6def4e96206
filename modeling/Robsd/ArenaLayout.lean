import Mathlib.Data.List.Basic
import Mathlib.Data.List.Pairwise
import Robsd.Arenas

/-!
The blocks of a program in an arena, and how they lie in its frames: each with its
padding in a place of its own behind the header of a frame, those of the outer scopes
where the leaving of the inner ones does not touch them.
-/
namespace Robsd.Arenas
open Robsd.Memory

/-- A block of bytes, with the number of scopes that were active when it got its size. -/
structure Block where
  addr : Nat
  data : List UInt8
  level : Nat

def Block.region (b : Block) : Region := ⟨b.addr,b.data.length⟩

/-- What a program knows of its arena: the number of active scopes and its blocks. -/
structure Blocks where
  depth : Nat
  live : List Block

/-- What a call does to the blocks. The content of a new block is what the memory after
    the call happens to have. -/
inductive Takes (bytes : Bytes) : Blocks → Call → Option Nat → Blocks → Prop
  | enter (d : Blocks) : Takes bytes d .enter none { d with depth := d.depth+1 }
  | leave (depth : Nat) (live : List Block) :
    Takes bytes ⟨depth+1,live⟩ .leave none ⟨depth,live.filter (·.level ≤ depth)⟩
  | malloc (d : Blocks) (i size : Nat) (room : Room) (p : Nat) :
    Takes bytes d (.malloc i size room) (some p) { d with live := ⟨p,read bytes p size,d.depth⟩ :: d.live }
  | calloc (d : Blocks) (i nmemb size : Nat) (room : Room) (p : Nat) :
    Takes bytes d (.calloc i nmemb size room) (some p)
      { d with live := ⟨p,List.replicate (nmemb * size) 0,d.depth⟩ :: d.live }
  | strndup (d : Blocks) (i : Nat) (src : List UInt8) (room : Room) (p : Nat) :
    Takes bytes d (.strndup i src room) (some p) { d with live := ⟨p,src ++ [0],d.depth⟩ :: d.live }
  | reallocNull (d : Blocks) (i old new : Nat) (room : Room) (p : Nat) :
    Takes bytes d (.realloc i none old new room) (some p) { d with live := ⟨p,read bytes p new,d.depth⟩ :: d.live }
  | shrink (depth : Nat) (before : List Block) (b : Block) (behind : List Block) (i old new : Nat) (room : Room)
    (fits : old ≤ b.data.length) (less : new ≤ old) :
    Takes bytes ⟨depth,before ++ b :: behind⟩ (.realloc i (some b.addr) old new room) (some b.addr)
      ⟨depth,before ++ { b with data := b.data.take new } :: behind⟩
  | grow (depth : Nat) (before : List Block) (b : Block) (behind : List Block) (i old new : Nat) (room : Room)
    (fits : old ≤ b.data.length) (more : old < new) (p : Nat) :
    Takes bytes ⟨depth,before ++ b :: behind⟩ (.realloc i (some b.addr) old new room) (some p)
      ⟨depth,before ++ ⟨p,b.data.take old ++ read bytes (p + old) (new - old),depth⟩ :: behind⟩
  | write (depth : Nat) (before : List Block) (b : Block) (behind : List Block) (k : Nat) (bs : List UInt8)
    (fits : k + bs.length ≤ b.data.length) :
    Takes bytes ⟨depth,before ++ b :: behind⟩ (.write (b.addr + k) bs) none
      ⟨depth,before ++ { b with data := b.data.take k ++ bs ++ b.data.drop (k + bs.length) } :: behind⟩
  | free (d : Blocks) : Takes bytes d .free none d

/-- What the functions of an arena ask of their caller: an arena that is still there, an
    active scope, a block with no more than its size. -/
def Call.Allowed (d : Blocks) (freed : Bool) : Call → Prop
  | .enter => freed = true → 0 < d.depth
  | .leave => 0 < d.depth
  | .malloc i _ _ => i < d.depth
  | .calloc i _ _ _ => i < d.depth
  | .strndup i _ _ => i < d.depth
  | .realloc i ptr old _ _ => i < d.depth ∧ ∀ p, ptr = some p → ∃ b ∈ d.live, b.addr = p ∧ old ≤ b.data.length
  | .write addr bs => ∃ b ∈ d.live, b.region.Covers ⟨addr,bs.length⟩
  | .free => freed = false

/-- `malloc` returns aligned memory that is not in use and not at the end of the address
    space. -/
def RoomFresh (heap : Heap) (room : Room) : Prop :=
  ∀ n p, room n = some p → heap.Fresh ⟨p,n⟩ ∧ p % maxalign = 0 ∧ p + n + 16 ≤ 2^64

def Call.Fresh (heap : Heap) : Call → Prop
  | .malloc _ _ room => RoomFresh heap room
  | .calloc _ _ _ room => RoomFresh heap room
  | .strndup _ _ room => RoomFresh heap room
  | .realloc _ _ _ _ room => RoomFresh heap room
  | _ => True

/-- The states of a program with an arena, next to what it knows of it. -/
inductive Ran : State → Blocks → Prop
  | start {heap : Heap} {pageSize poisonSize : Nat} {room : Room} {s : State} (page : 4096 ≤ pageSize)
    (poison : poisonSize = 0 ∨ poisonSize = 8) (empty : heap.regions = []) (fresh : RoomFresh heap room)
    (alloc : arenaAlloc heap pageSize poisonSize room = .ok s) : Ran s ⟨0,[]⟩
  | call {s s' : State} {d d' : Blocks} {c : Call} {out : Option Nat} (before : Ran s d) (allowed : c.Allowed d s.freed)
    (fresh : c.Fresh s.heap) (run : call s c = .ok (out,s')) (takes : Takes s'.heap.bytes d c out d') : Ran s' d'

/-- The blocks are as the program left them, aligned, apart from each other and from the
    headers of the frames, in memory that is allocated; and no other memory is. -/
structure Sound (s : State) (d : Blocks) : Prop where
  reads : ∀ b ∈ d.live, read s.heap.bytes b.addr b.data.length = b.data
  aligned : ∀ b ∈ d.live, b.addr % maxalign = 0
  inside : ∀ b ∈ d.live, ∃ f ∈ s.arena.frames, f.ptr + frameHeader ≤ b.addr ∧
    b.region.addr + b.region.size ≤ f.ptr + f.size
  apart : d.live.Pairwise fun b c => Apart b.region c.region
  regions : s.heap.regions = s.arena.frames.map Frame.region
  frames : (s.arena.frames.map Frame.region).Pairwise Apart
  levels : ∀ b ∈ d.live, 0 < b.level ∧ b.level ≤ d.depth
  left : s.freed = true → d.depth = 0 → s.heap.regions = []

/-! ## Frames -/

/-- A frame with its header. -/
structure FrameOk (f : Frame) : Prop where
  ptr : f.ptr % maxalign = 0
  header : frameHeader ≤ f.len
  len : f.len ≤ f.size
  aligned : f.len % maxalign = 0
  size : f.size % maxalign = 0
  ends : f.ptr + f.size + 16 ≤ 2^64

theorem alignAddress_eq {poison : Nat} (addr : Nat) (is : poison = 0 ∨ poison = 8) (small : addr + 16 ≤ 2^64) :
    alignAddress poison addr = (addr + 7) / 8 * 8 + poison := by
  have up : (addr + 7) % 2^64 = addr + 7 := Nat.mod_eq_of_lt (by omega)
  simp only [alignAddress,maxalign,Nat.add_one_sub_one,up]
  rcases is with rfl | rfl
  · simp
  · have gap : ((addr + 7) / 8 * 8 + 2^64 - addr) % 2^64 = (addr + 7) / 8 * 8 - addr := by omega
    rw [if_pos ⟨by omega,by omega⟩,Nat.mod_eq_of_lt (by omega),Nat.add_comm]

/-- Alignment does not depend on an aligned start. -/
theorem alignAddress_add {poison : Nat} (start addr : Nat) (is : poison = 0 ∨ poison = 8) (aligned : start % 8 = 0)
    (small : start + addr + 16 ≤ 2^64) : alignAddress poison (start + addr) = start + alignAddress poison addr := by
  rw [alignAddress_eq _ is small,alignAddress_eq _ is (by omega)]
  omega

/-- A push takes the place at the end of a frame and what aligns it. -/
theorem arenaPush_spec {poison size p : Nat} {f f' : Frame} (is : poison = 0 ∨ poison = 8) (sized : f.size % 8 = 0)
    (ends : f.size + 16 ≤ 2^64) (pushed : arenaPush poison f size = some (p,f')) :
    p = f.ptr + f.len ∧ f'.ptr = f.ptr ∧ f'.size = f.size ∧ f.len + size ≤ f'.len ∧ f'.len ≤ f.size ∧ f'.len % 8 = 0 ∧
      f'.len = min (alignAddress poison (f.len + size)) f.size := by
  unfold arenaPush at pushed
  simp only at pushed
  split_ifs at pushed with wraps large more
  all_goals
    cases pushed
    have off := alignAddress_eq (f.len + size) is (by omega)
    rw [off] at more ⊢
    refine ⟨rfl,rfl,rfl,?_⟩
    simp only
    omega

/-- A push fails only where there is not enough room. -/
theorem arenaPush_fits (poison : Nat) {size : Nat} {f : Frame} (ends : f.size < 2^64) (fits : f.len + size ≤ f.size) :
    ∃ out, arenaPush poison f size = some out := by
  unfold arenaPush
  rw [if_neg (by omega),if_neg (by omega)]
  exact ⟨_,rfl⟩

/-! ## Layout -/

/-- A block with the place where its padding stops. -/
structure Slot extends Block where
  stop : Nat

def Slot.whole (b : Slot) : Region := ⟨b.addr,b.stop - b.addr⟩

/-- A block is in a frame, behind the header, and its padding reaches to the end of the
    frame at most. -/
structure Inside (poison : Nat) (f : Frame) (b : Slot) : Prop where
  low : f.ptr + frameHeader ≤ b.addr
  data : b.addr + b.data.length ≤ b.stop
  high : b.stop ≤ f.ptr + f.len
  padded : min (alignAddress poison (b.addr + b.data.length)) (f.ptr + f.size) ≤ b.stop

/-- All blocks are in frames. -/
structure Fits (poison : Nat) (frames : List Frame) (slots : List Slot) : Prop where
  ok : ∀ f ∈ frames, FrameOk f
  held : ∀ b ∈ slots, b.addr % 8 = 0 ∧ ∃ f ∈ frames, Inside poison f b

/-- All blocks are in frames, and for every scope those that were there before it are in
    the frames that its leaving brings back. -/
def Layout (poison : Nat) : List Scope → List Frame → List Slot → Prop
  | [], frames, slots => Fits poison frames slots
  | scope :: scopes, frames, slots => Fits poison frames slots ∧ ∃ newer f older, frames = newer ++ f :: older ∧
      scope.frame = some f.ptr ∧ scope.frameLen ≤ f.len ∧
      Layout poison scopes ({ f with len := scope.frameLen } :: older) (slots.filter (·.level ≤ scopes.length))

/-- The frames after an allocation: the current one has grown, or there is a new one. -/
inductive Extends : List Frame → List Frame → Prop
  | same (frames : List Frame) : Extends frames frames
  | grown {f f' : Frame} (fs : List Frame) (ptr : f'.ptr = f.ptr) (size : f'.size = f.size) (len : f.len ≤ f'.len) :
    Extends (f :: fs) (f' :: fs)
  | new (f : Frame) (fs : List Frame) : Extends fs (f :: fs)

/-- A block in the place of another one, with less data. -/
structure Shrunk (b' b : Slot) : Prop where
  addr : b'.addr = b.addr
  level : b'.level = b.level
  stop : b'.stop = b.stop
  data : b'.data.length ≤ b.data.length

section
variable {poison : Nat} {frames frames' : List Frame} {slots slots' : List Slot} {scopes : List Scope}

theorem Shrunk.refl (b : Slot) : Shrunk b b := ⟨rfl,rfl,rfl,Nat.le_refl _⟩

theorem Inside.shrunk {f : Frame} {b b' : Slot} (is : poison = 0 ∨ poison = 8) (ok : FrameOk f)
    (inside : Inside poison f b) (shrunk : Shrunk b' b) :
    Inside poison f b' := by
  obtain ⟨low,data,high,padded⟩ := inside
  obtain ⟨addr,_,stop,less⟩ := shrunk
  have ends := ok.ends
  have len := ok.len
  rw [alignAddress_eq _ is (by omega)] at padded
  refine ⟨addr ▸ low,by omega,stop ▸ high,?_⟩
  rw [alignAddress_eq _ is (by omega)]
  omega

theorem Fits.shrunk (is : poison = 0 ∨ poison = 8) (fits : Fits poison frames slots)
    (under : ∀ b' ∈ slots', ∃ b ∈ slots, Shrunk b' b) :
    Fits poison frames slots' := by
  refine ⟨fits.ok,?_⟩
  intro b' member
  obtain ⟨b,there,shrunk⟩ := under b' member
  obtain ⟨aligned,f,frame,inside⟩ := fits.held b there
  exact ⟨shrunk.addr ▸ aligned,f,frame,inside.shrunk is (fits.ok f frame) shrunk⟩

theorem Layout.fits (layout : Layout poison scopes frames slots) : Fits poison frames slots := by
  cases scopes with
  | nil => exact layout
  | cons scope scopes => exact layout.1

theorem Layout.shrunk (is : poison = 0 ∨ poison = 8) (layout : Layout poison scopes frames slots)
    (under : ∀ b' ∈ slots', ∃ b ∈ slots, Shrunk b' b) : Layout poison scopes frames slots' := by
  induction scopes generalizing frames slots slots' with
  | nil => exact Fits.shrunk is layout under
  | cons scope scopes ih =>
    obtain ⟨fits,newer,f,older,split,mark,len,rest⟩ := layout
    refine ⟨fits.shrunk is under,newer,f,older,split,mark,len,ih rest ?_⟩
    intro b' member
    obtain ⟨here,level⟩ := List.mem_filter.mp member
    obtain ⟨b,there,shrunk⟩ := under b' here
    exact ⟨b,List.mem_filter.mpr ⟨there,shrunk.level ▸ level⟩,shrunk⟩

/-- Frames that a scope brings back are still there after an allocation. -/
theorem Extends.cut (extends_ : Extends frames frames') {newer older : List Frame} {f : Frame}
    (split : frames = newer ++ f :: older) :
    ∃ newer' f', frames' = newer' ++ f' :: older ∧ f'.ptr = f.ptr ∧ f'.size = f.size ∧ f.len ≤ f'.len := by
  cases extends_ with
  | same => exact ⟨newer,f,split,rfl,rfl,Nat.le_refl _⟩
  | new n => exact ⟨n :: newer,f,by rw [split]; rfl,rfl,rfl,Nat.le_refl _⟩
  | @grown g g' fs ptr size len =>
    cases newer with
    | nil =>
      cases split
      exact ⟨[],g',rfl,ptr,size,len⟩
    | cons _ newer =>
      cases split
      exact ⟨g' :: newer,f,rfl,rfl,rfl,Nat.le_refl _⟩

theorem Extends.inside (extends_ : Extends frames frames') {f : Frame} {b : Slot} (member : f ∈ frames)
    (inside : Inside poison f b) :
    ∃ f' ∈ frames', Inside poison f' b := by
  obtain ⟨newer,older,split⟩ := List.append_of_mem member
  obtain ⟨newer',f',split',ptr,size,len⟩ := extends_.cut split
  obtain ⟨low,data,high,padded⟩ := inside
  exact ⟨f',by rw [split']; simp,ptr ▸ low,data,by omega,by rw [ptr,size]; exact padded⟩

/-- After an allocation the blocks of outer scopes are where they were. -/
theorem Layout.extends (is : poison = 0 ∨ poison = 8) (layout : Layout poison scopes frames slots)
    (extends_ : Extends frames frames') (fits : Fits poison frames' slots')
    (under : ∀ b' ∈ slots', b'.level < scopes.length → ∃ b ∈ slots, Shrunk b' b) :
    Layout poison scopes frames' slots' := by
  cases scopes with
  | nil => exact fits
  | cons scope scopes =>
    obtain ⟨_,newer,f,older,split,mark,len,rest⟩ := layout
    obtain ⟨newer',f',split',ptr,size,more⟩ := extends_.cut split
    refine ⟨fits,newer',f',older,split',ptr ▸ mark,by omega,?_⟩
    have back : { f' with len := scope.frameLen } = { f with len := scope.frameLen } := by
      rw [Frame.mk.injEq]; exact ⟨ptr,size,rfl⟩
    rw [back]
    apply rest.shrunk is
    intro b' member
    obtain ⟨here,level⟩ := List.mem_filter.mp member
    have level : b'.level ≤ scopes.length := of_decide_eq_true level
    obtain ⟨b,there,shrunk⟩ := under b' here (Nat.lt_succ_of_le level)
    exact ⟨b,List.mem_filter.mpr ⟨there,decide_eq_true (shrunk.level ▸ level)⟩,shrunk⟩

theorem Inside.whole {f : Frame} {b : Slot} (ok : FrameOk f) (inside : Inside poison f b) {x : Nat}
    (here : b.whole.Has x) :
    f.region.Has x ∧ f.ptr + frameHeader ≤ x ∧ x < f.ptr + f.len := by
  obtain ⟨low,data,high,_⟩ := inside
  have len := ok.len
  unfold Region.Has Slot.whole at here
  unfold Region.Has Frame.region
  simp only at here ⊢
  omega

/-- Two frames in which an address is are the same. -/
theorem same_frame (apart : (frames.map Frame.region).Pairwise Apart) {f g : Frame} (first : f ∈ frames)
    (second : g ∈ frames) {x : Nat} (here : f.region.Has x) (there : g.region.Has x) :
    f = g := by
  by_contra other
  have symmetric : Std.Symm fun f g : Frame => Apart f.region g.region := ⟨fun _ _ => Apart.symm⟩
  exact (List.pairwise_map.mp apart).forall first second other x here there

end

/-! ## The invariant -/

/-- The state of an arena against the blocks that a program has in it. -/
structure Holds (s : State) (d : Blocks) (slots : List Slot) : Prop where
  poison : s.arena.poisonSize = 0 ∨ s.arena.poisonSize = 8
  frameSize : 0 < s.arena.frameSize ∧ s.arena.frameSize % 8 = 0 ∧ s.arena.frameSize < 2^64
  depth : s.scopes.length = d.depth
  refs : s.arena.refs = d.depth + if s.freed then 0 else 1
  ids : s.freed = false → ∀ i scope, s.scopes[i]? = some scope → scope.id + i = d.depth + 1
  regions : s.heap.regions = s.arena.frames.map Frame.region
  frames : (s.arena.frames.map Frame.region).Pairwise Apart
  there : s.arena.frames = [] ↔ s.arena.refs = 0
  levels : ∀ b ∈ d.live, 0 < b.level ∧ b.level ≤ d.depth
  live : slots.map Slot.toBlock = d.live
  layout : Layout s.arena.poisonSize s.scopes s.arena.frames slots
  apart : (slots.map Slot.whole).Pairwise Apart
  reads : ∀ b ∈ d.live, read s.heap.bytes b.addr b.data.length = b.data

section
variable {s s' : State} {d : Blocks} {slots : List Slot} {f : Frame} {fs : List Frame}

theorem Holds.fits (holds : Holds s d slots) : Fits s.arena.poisonSize s.arena.frames slots := holds.layout.fits

theorem Holds.sound (holds : Holds s d slots) : Sound s d where
  reads := holds.reads
  aligned := by
    intro b member
    rw [← holds.live] at member
    obtain ⟨slot,there,rfl⟩ := List.mem_map.mp member
    exact (holds.fits.held slot there).1
  inside := by
    intro b member
    rw [← holds.live] at member
    obtain ⟨slot,there,rfl⟩ := List.mem_map.mp member
    obtain ⟨_,f,frame,inside⟩ := holds.fits.held slot there
    have len := (holds.fits.ok f frame).len
    refine ⟨f,frame,inside.low,?_⟩
    exact Nat.le_trans inside.data (Nat.le_trans inside.high (Nat.add_le_add_left len _))
  apart := by
    rw [← holds.live,List.pairwise_map]
    have apart := List.pairwise_map.mp holds.apart
    refine apart.imp_of_mem fun {b c} first second apart => apart.mono ?_ ?_
    · intro x here
      obtain ⟨_,f,_,inside⟩ := holds.fits.held b first
      have data := inside.data
      unfold Region.Has Block.region at here
      unfold Region.Has Slot.whole
      simp only at here ⊢
      omega
    · intro x here
      obtain ⟨_,f,_,inside⟩ := holds.fits.held c second
      have data := inside.data
      unfold Region.Has Block.region at here
      unfold Region.Has Slot.whole
      simp only at here ⊢
      omega
  regions := holds.regions
  frames := holds.frames
  levels := holds.levels
  left := by
    intro freed none
    have refs := holds.refs
    rw [freed,none] at refs
    rw [holds.regions,holds.there.mpr (by simpa using refs)]
    rfl

/-- The rest of the current frame is apart from all blocks. -/
theorem Holds.rest_apart (holds : Holds s d slots) (frames : s.arena.frames = f :: fs) {b : Slot} (member : b ∈ slots) :
    Apart ⟨f.ptr + f.len,f.size - f.len⟩ b.whole := by
  intro x here there
  obtain ⟨_,g,frame,inside⟩ := holds.fits.held b member
  have first : f ∈ s.arena.frames := by rw [frames]; exact List.mem_cons_self
  have len := (holds.fits.ok f first).len
  unfold Region.Has at here
  simp only at here
  have mine : f.region.Has x := by
    unfold Region.Has Frame.region
    simp only
    omega
  have same := same_frame holds.frames first frame mine (inside.whole (holds.fits.ok g frame) there).1
  subst same
  have high := inside.high
  unfold Region.Has Slot.whole at there
  simp only at there
  omega

theorem Holds.withFrames (holds : Holds s d slots) {frames : List Frame} {live : List Block}
    {slots' : List Slot} (extends_ : Extends s.arena.frames frames)
    (same : s.arena.frames.map Frame.region = frames.map Frame.region)
    (fits : Fits s.arena.poisonSize frames slots')
    (under : ∀ b' ∈ slots', b'.level < s.scopes.length → ∃ b ∈ slots, Shrunk b' b)
    (is : slots'.map Slot.toBlock = live) (levels : ∀ b ∈ live, 0 < b.level ∧ b.level ≤ d.depth)
    (apart : (slots'.map Slot.whole).Pairwise Apart)
    (reads : ∀ b ∈ live, read s.heap.bytes b.addr b.data.length = b.data) :
    Holds (s.withFrames frames) { d with live } slots' where
  poison := holds.poison
  frameSize := holds.frameSize
  depth := holds.depth
  refs := holds.refs
  ids := holds.ids
  regions := holds.regions.trans same
  frames := by
    have frames := holds.frames
    rw [same] at frames
    exact frames
  there := by
    rw [show (s.withFrames frames).arena.refs = s.arena.refs from rfl,← holds.there]
    have := congrArg List.length same
    simp only [List.length_map] at this
    simp only [State.withFrames,← List.length_eq_zero_iff,this]
  levels := levels
  live := is
  layout := holds.layout.extends holds.poison extends_ fits under
  apart := apart
  reads := reads

theorem Extends.fits {poison : Nat} {frames frames' : List Frame} (extends_ : Extends frames frames')
    (fits : Fits poison frames slots) (ok : ∀ f ∈ frames', FrameOk f) :
    Fits poison frames' slots := by
  refine ⟨ok,?_⟩
  intro b member
  obtain ⟨aligned,f,frame,inside⟩ := fits.held b member
  exact ⟨aligned,extends_.inside frame inside⟩

theorem FrameOk.grown {f f' : Frame} (ok : FrameOk f) (ptr : f'.ptr = f.ptr) (size : f'.size = f.size)
    (len : f.len ≤ f'.len) (within : f'.len ≤ f.size) (aligned : f'.len % 8 = 0) :
    FrameOk f' :=
  ⟨ptr ▸ ok.ptr,Nat.le_trans ok.header len,size ▸ within,aligned,size ▸ ok.size,by rw [ptr,size]; exact ok.ends⟩

/-- A new block in the current frame. -/
theorem Holds.push (holds : Holds s d slots) (frames : s.arena.frames = f :: fs) {size p : Nat} {f' : Frame}
    (pushed : arenaPush s.arena.poisonSize f size = some (p,f')) (active : 0 < d.depth) :
    Extends s.arena.frames (f' :: fs) ∧
      ∃ slots', Holds (s.withFrames (f' :: fs)) { d with live := ⟨p,read s.heap.bytes p size,d.depth⟩ :: d.live }
        slots' := by
  have first : f ∈ s.arena.frames := by rw [frames]; exact List.mem_cons_self
  have ok := holds.fits.ok f first
  have ends := ok.ends
  obtain ⟨rfl,ptr,sized,len,within,aligned,is⟩ := arenaPush_spec holds.poison ok.size (by omega) pushed
  have extends_ : Extends s.arena.frames (f' :: fs) := by
    rw [frames]
    exact .grown fs ptr sized (by omega)
  have ok' : ∀ g ∈ f' :: fs, FrameOk g := by
    intro g member
    rcases List.mem_cons.mp member with rfl | member
    · exact ok.grown ptr sized (by omega) within aligned
    · exact holds.fits.ok g (by rw [frames]; exact List.mem_cons_of_mem _ member)
  let slot : Slot := ⟨⟨f.ptr + f.len,read s.heap.bytes (f.ptr + f.len) size,d.depth⟩,f.ptr + f'.len⟩
  have inside : Inside s.arena.poisonSize f' slot := by
    have header := ok.header
    have place := alignAddress_add f.ptr (f.len + size) holds.poison ok.ptr (by omega)
    refine ⟨?_,?_,?_,?_⟩ <;> simp only [slot,length_read,ptr,sized,Nat.add_assoc] at place ⊢
    · omega
    · omega
    · omega
    · rw [place]
      omega
  have fits := extends_.fits holds.fits ok'
  refine ⟨extends_,slot :: slots,holds.withFrames extends_ ?_ ⟨ok',?_⟩ ?_ ?_ ?_ ?_ ?_⟩
  · simp [frames,Frame.region,ptr,sized]
  · intro b member
    rcases List.mem_cons.mp member with rfl | member
    · have header : (f.ptr + f.len) % 8 = 0 := by
        have left := ok.ptr
        have right := ok.aligned
        simp only [maxalign] at left right
        omega
      exact ⟨header,f',List.mem_cons_self,inside⟩
    · exact fits.held b member
  · intro b member below
    rcases List.mem_cons.mp member with rfl | member
    · rw [holds.depth] at below
      exact absurd below (Nat.lt_irrefl _)
    · exact ⟨b,member,.refl b⟩
  · rw [List.map_cons,holds.live]
  · intro b member
    rcases List.mem_cons.mp member with rfl | member
    · exact ⟨active,Nat.le_refl _⟩
    · exact holds.levels b member
  · rw [List.map_cons,List.pairwise_cons]
    refine ⟨?_,holds.apart⟩
    intro r member
    obtain ⟨b,there,rfl⟩ := List.mem_map.mp member
    refine (holds.rest_apart frames there).mono ?_ fun _ here => here
    intro x here
    unfold Region.Has Slot.whole at here
    unfold Region.Has
    simp only [slot] at here ⊢
    omega
  · intro b member
    rcases List.mem_cons.mp member with rfl | member
    · rw [length_read]
    · exact holds.reads b member

/-- A new frame, or none where there is no memory. -/
theorem arenaFrameAlloc_spec (s : State) {n : Nat} (room : Room) (small : n < 2^64) (enough : frameHeader ≤ n) :
    room n = none ∧ arenaFrameAlloc s n room = .ok (false,s) ∨
    ∃ ptr p f, room n = some ptr ∧ arenaPush s.arena.poisonSize ⟨ptr,n,0⟩ frameHeader = some (p,f) ∧
      arenaFrameAlloc s n room =
        .ok (true,{ s with heap := s.heap.alloc ⟨ptr,n⟩ }.withFrames (f :: s.arena.frames)) := by
  cases place : room n with
  | none => exact .inl ⟨rfl,by simp [arenaFrameAlloc,place]⟩
  | some ptr =>
    obtain ⟨⟨p,f⟩,pushed⟩ := arenaPush_fits s.arena.poisonSize (f := ⟨ptr,n,0⟩) small
      (by simpa using enough)
    exact .inr ⟨ptr,p,f,rfl,pushed,by simp [arenaFrameAlloc,place,pushed]⟩

theorem Holds.newFrame (holds : Holds s d slots) {n ptr p : Nat} {f : Frame} (fresh : s.heap.Fresh ⟨ptr,n⟩)
    (aligned : ptr % 8 = 0) (ends : ptr + n + 16 ≤ 2^64) (sized : n % 8 = 0)
    (pushed : arenaPush s.arena.poisonSize ⟨ptr,n,0⟩ frameHeader = some (p,f)) (present : 0 < s.arena.refs) :
    Holds ({ s with heap := s.heap.alloc ⟨ptr,n⟩ }.withFrames (f :: s.arena.frames)) d slots ∧ FrameOk f ∧ f.size = n ∧
      f.len ≤ frameHeader + s.arena.poisonSize := by
  obtain ⟨_,ptr_,size_,len,within,lenAligned,is⟩ := arenaPush_spec holds.poison sized (by simp only; omega) pushed
  simp only at ptr_ size_ len within is
  have ok : FrameOk f := ⟨ptr_ ▸ aligned,by omega,by omega,lenAligned,size_ ▸ sized,by omega⟩
  have extends_ : Extends s.arena.frames (f :: s.arena.frames) := .new f s.arena.frames
  have region : f.region = ⟨ptr,n⟩ := by simp [Frame.region,ptr_,size_]
  refine ⟨{ holds with regions := ?_, frames := ?_, there := ?_, layout := ?_ },ok,size_,?_⟩
  · simp [State.withFrames,Heap.alloc,holds.regions,region]
  · refine List.pairwise_cons.mpr ⟨?_,holds.frames⟩
    intro r member
    rw [← holds.regions] at member
    exact region ▸ fresh r member
  · simp only [State.withFrames,reduceCtorEq,false_iff]
    omega
  · refine holds.layout.extends holds.poison extends_ (extends_.fits holds.fits ?_) fun b member
      _ => ⟨b,member,.refl b⟩
    intro g member
    rcases List.mem_cons.mp member with rfl | member
    · exact ok
    · exact holds.fits.ok g member
  · rw [is,alignAddress_eq (0 + frameHeader) holds.poison (by decide)]
    simp only [frameHeader]
    omega

theorem growFrameSize_spec {total frameSize n : Nat} (positive : 0 < frameSize) (sized : frameSize % 8 = 0)
    (grown : growFrameSize total frameSize = some n) : total ≤ n ∧ n % 8 = 0 ∧ (frameSize < 2^64 → n < 2^64) := by
  fun_induction growFrameSize total frameSize with
  | case1 => cases grown
  | case2 frameSize less fits ih =>
    obtain ⟨enough,aligned,small⟩ := ih (by omega) (by omega) grown
    exact ⟨enough,aligned,fun _ => small (by omega)⟩
  | case3 frameSize enough =>
    cases grown
    exact ⟨by omega,sized,id⟩

/-- The least of the sizes doubled from one that is large enough. -/
def Doubled (total first n : Nat) : Prop := ∃ j, n = first * 2^j ∧ total ≤ n ∧ ∀ i < j, first * 2^i < total

theorem doubled_pow (n j : Nat) : 2 * n * 2^j = n * 2^(j+1) := by rw [Nat.pow_succ',Nat.mul_comm 2 n,Nat.mul_assoc]

theorem growFrameSize_doubled {total frameSize n : Nat} (grown : growFrameSize total frameSize = some n) :
    Doubled total frameSize n := by
  fun_induction growFrameSize total frameSize with
  | case1 => cases grown
  | case2 frameSize less fits ih =>
    obtain ⟨j,rfl,enough,least⟩ := ih grown
    refine ⟨j+1,doubled_pow frameSize j,enough,?_⟩
    intro i before
    cases i with
    | zero => simpa using less
    | succ i =>
      rw [← doubled_pow]
      exact least i (by omega)
  | case3 frameSize enough =>
    cases grown
    exact ⟨0,by simp,by omega,by simp⟩

/-- A size that had to be doubled is less than twice what is needed. -/
theorem Doubled.less {total first n : Nat} (doubled : Doubled total first n) (more : first < total) :
    n < 2 * total := by
  obtain ⟨j,rfl,enough,least⟩ := doubled
  cases j with
  | zero =>
    rw [Nat.pow_zero,Nat.mul_one] at enough
    omega
  | succ j =>
    have before := least j (Nat.lt_succ_self j)
    rw [Nat.pow_succ,← Nat.mul_assoc]
    omega

/-- Where no size is found the one that would be large enough does not fit. -/
theorem growFrameSize_overflow {total frameSize n : Nat} (positive : 0 < frameSize)
    (none : growFrameSize total frameSize = none) (doubled : Doubled total frameSize n) :
    2^64 ≤ n := by
  fun_induction growFrameSize total frameSize generalizing n with
  | case1 frameSize less wraps =>
    obtain ⟨j,rfl,enough,_⟩ := doubled
    cases j with
    | zero => simp only [Nat.pow_zero,Nat.mul_one] at enough; omega
    | succ j =>
      calc 2^64 ≤ 2 * frameSize * 1 := by omega
        _ ≤ 2 * frameSize * 2^j := Nat.mul_le_mul_left _ Nat.one_le_two_pow
        _ = frameSize * 2^(j+1) := doubled_pow frameSize j
  | case2 frameSize less fits ih =>
    obtain ⟨j,rfl,enough,least⟩ := doubled
    cases j with
    | zero => simp only [Nat.pow_zero,Nat.mul_one] at enough; omega
    | succ j =>
      refine ih (by omega) none ⟨j,(doubled_pow frameSize j).symm,enough,?_⟩
      intro i before
      rw [doubled_pow]
      exact least (i+1) (by omega)
  | case3 => cases none

/-- What an allocation leaves alone. -/
structure Kept (s s' : State) : Prop where
  scopes : s'.scopes = s.scopes
  freed : s'.freed = s.freed
  frames : Extends s.arena.frames s'.arena.frames

/-- The current frame has no place for a size. -/
def State.Full (s : State) (size : Nat) : Prop := ∀ f ∈ s.arena.frames.head?, f.size < f.len + size

/-- The size of the frame that would have the place. -/
def State.Needs (s : State) (size n : Nat) : Prop :=
  Doubled (s.arena.poisonSize + (size + frameHeader)) s.arena.frameSize n

/-- What an allocation ends the program with: a scope that is not the valid one, the size
    of a frame that does not fit into 64 bits, or no memory for such a frame. -/
inductive Refuses (s : State) (id size : Nat) (room : Room) : Stop → Prop
  | trap (invalid : id ≠ s.arena.refs) : Refuses s id size room .trap
  | large (full : s.Full size) (overflow : ∀ n, s.Needs size n → 2^64 ≤ n) : Refuses s id size room .large
  | memory (full : s.Full size) {n : Nat} (needs : s.Needs size n) (none : room n = none) :
    Refuses s id size room .memory

/-- An allocation is a new block, or it is refused. -/
theorem Holds.malloc (holds : Holds s d slots) (id size : Nat) {room : Room} (fresh : RoomFresh s.heap room)
    (active : 0 < d.depth) (present : 0 < s.arena.refs) :
    (∃ p s' slots', arenaMalloc s id size room = .ok (p,s') ∧ Kept s s' ∧ s'.heap.bytes = s.heap.bytes ∧
      Holds s' { d with live := ⟨p,read s.heap.bytes p size,d.depth⟩ :: d.live } slots') ∨
    ∃ e, arenaMalloc s id size room = .error e ∧ Refuses s id size room e := by
  by_cases valid : id = s.arena.refs
  · have nonempty : s.arena.frames ≠ [] := fun empty => absurd (holds.there.mp empty) (by omega)
    obtain ⟨f,fs,frames⟩ := List.exists_cons_of_ne_nil nonempty
    cases pushed : arenaPush s.arena.poisonSize f size with
    | some out =>
      obtain ⟨p,f'⟩ := out
      obtain ⟨extends_,slots',holds'⟩ := holds.push frames pushed active
      exact .inl ⟨p,s.withFrames (f' :: fs),slots',by simp [arenaMalloc,valid,frames,pushed],
        ⟨rfl,rfl,extends_⟩,rfl,holds'⟩
    | none =>
      have run : arenaMalloc s id size room = arenaMallocFrame s size room := by simp [arenaMalloc,valid,frames,pushed]
      have full : s.Full size := by
        intro g current
        obtain rfl : f = g := by simpa [frames] using current
        have ends := (holds.fits.ok f (by rw [frames]; exact List.mem_cons_self)).ends
        by_contra more
        have fits : f.len + size ≤ f.size := Nat.not_lt.mp more
        obtain ⟨out,place⟩ := arenaPush_fits s.arena.poisonSize (by omega) fits
        rw [place] at pushed
        cases pushed
      rw [run]
      unfold arenaMallocFrame
      simp only
      split_ifs with large
      · exact .inr ⟨.large,rfl,.large full fun n ⟨_,_,enough,_⟩ => by omega⟩
      · cases grown : growFrameSize (s.arena.poisonSize + (size + frameHeader)) s.arena.frameSize with
        | none => exact .inr ⟨.large,rfl,.large full fun n needs =>
          growFrameSize_overflow holds.frameSize.1 grown needs⟩
        | some n =>
          obtain ⟨enough,sized,small⟩ := growFrameSize_spec holds.frameSize.1 holds.frameSize.2.1 grown
          rcases arenaFrameAlloc_spec s room (small holds.frameSize.2.2) (by omega) with
            ⟨none,alloc⟩ | ⟨ptr,q,g,place,header,alloc⟩
          · exact .inr ⟨.memory,by simp [alloc],.memory full (growFrameSize_doubled grown) none⟩
          · obtain ⟨apart,aligned,ends⟩ := fresh n ptr place
            obtain ⟨holds1,ok,size1,len1⟩ := holds.newFrame apart aligned ends sized header present
            obtain ⟨⟨p,g'⟩,pushed1⟩ :=
              arenaPush_fits s.arena.poisonSize (f := g) (by omega) (show g.len + size ≤ g.size by omega)
            obtain ⟨_,slots',holds'⟩ := holds1.push rfl pushed1 active
            refine .inl ⟨p,_,slots',?_,?_,?_,holds'⟩
            · simp only [alloc,State.withFrames,pushed1]
            · exact ⟨rfl,rfl,.new g' _⟩
            · rfl
  · exact .inr ⟨.trap,by simp [arenaMalloc,valid],.trap valid⟩

end

end Robsd.Arenas
