import Robsd.ArenaLayout

/-!
What the functions of an arena do to the blocks in it: one block is written, made
smaller or grown among the others, scopes are entered and left, and the arena is freed.
-/
namespace Robsd.Arenas
open Robsd.Memory

section
variable {s s' : State} {d : Blocks} {slots : List Slot} {f : Frame} {fs : List Frame}
variable {depth : Nat} {before behind : List Block} {b : Block}

theorem Holds.split (holds : Holds s ⟨depth,before ++ b :: behind⟩ slots) :
    ∃ first slot rest, slots = first ++ slot :: rest ∧ first.map Slot.toBlock = before ∧ slot.toBlock = b ∧
      rest.map Slot.toBlock = behind := by
  obtain ⟨first,others,rfl,before_,others_⟩ := List.map_eq_append_iff.mp holds.live
  obtain ⟨slot,rest,rfl,here,behind_⟩ := List.map_eq_cons_iff.mp others_
  exact ⟨first,slot,rest,rfl,before_,here,behind_⟩

theorem Holds.others_apart (holds : Holds s ⟨depth,before ++ b :: behind⟩ slots) :
    ∀ c ∈ before ++ behind, Apart b.region c.region :=
  (List.pairwise_cons.mp ((List.pairwise_middle Apart.symm).mp holds.sound.apart)).1

/-- The memory of a block is allocated. -/
theorem Holds.covered (holds : Holds s d slots) {b : Block} (member : b ∈ d.live) :
    ∃ q ∈ s.heap.regions, q.Covers b.region := by
  obtain ⟨f,frame,low,high⟩ := holds.sound.inside b member
  refine ⟨f.region,?_,?_,high⟩
  · rw [holds.regions]
    exact List.mem_map_of_mem frame
  · exact Nat.le_trans (Nat.le_add_right _ _) low

theorem mem_others {α : Type} {first rest : List α} {a x : α} (member : x ∈ first ++ a :: rest) :
    x = a ∨ x ∈ first ++ rest := by
  simp only [List.mem_append,List.mem_cons] at member ⊢
  tauto

theorem others_mem {α : Type} {first rest : List α} {a x : α} (member : x ∈ first ++ rest) :
    x ∈ first ++ a :: rest := by
  simp only [List.mem_append,List.mem_cons] at member ⊢
  tauto

/-- A block gets other data, not more of it. -/
theorem Holds.replace (holds : Holds s ⟨depth,before ++ b :: behind⟩ slots) {bytes : Bytes} {data : List UInt8}
    (less : data.length ≤ b.data.length) (here : read bytes b.addr data.length = data)
    (elsewhere : ∀ c ∈ before ++ behind, read bytes c.addr c.data.length = c.data) :
    ∃ slots', Holds { s with heap := { s.heap with bytes } } ⟨depth,before ++ { b with data } :: behind⟩ slots' := by
  have layout := holds.layout
  have apart := holds.apart
  obtain ⟨first,slot,rest,rfl,rfl,rfl,rfl⟩ := holds.split
  refine ⟨first ++ { slot with data } :: rest,
    { holds with live := by simp, levels := ?_, layout := ?_, apart := ?_, reads := ?_ }⟩
  · intro c member
    rcases mem_others member with rfl | member
    · exact holds.levels slot.toBlock (by simp)
    · exact holds.levels c (others_mem member)
  · apply layout.shrunk holds.poison
    intro b' member
    rcases mem_others member with rfl | member
    · exact ⟨slot,by simp,rfl,rfl,rfl,less⟩
    · exact ⟨b',others_mem member,.refl b'⟩
  · simpa [Slot.whole] using apart
  · intro c member
    rcases mem_others member with rfl | member
    · exact here
    · exact elsewhere c member

/-- Bytes are stored into a block. -/
theorem Holds.put (holds : Holds s ⟨depth,before ++ b :: behind⟩ slots) (k : Nat) (bs : List UInt8)
    (fits : k + bs.length ≤ b.data.length) :
    ∃ slots', s.heap.put (b.addr + k) bs = some { s.heap with bytes := store s.heap.bytes (b.addr + k) bs } ∧
      Holds { s with heap := { s.heap with bytes := store s.heap.bytes (b.addr + k) bs } }
        ⟨depth,before ++ { b with data := b.data.take k ++ bs ++ b.data.drop (k + bs.length) } :: behind⟩ slots' := by
  obtain ⟨q,member,covers⟩ := holds.covered (b := b) (by simp)
  have covers' : q.Covers ⟨b.addr + k,bs.length⟩ := by
    unfold Region.Covers Block.region at covers
    unfold Region.Covers
    simp only at covers ⊢
    omega
  have length : (b.data.take k ++ bs ++ b.data.drop (k + bs.length)).length = b.data.length := by
    simp only [List.length_append,List.length_take,List.length_drop]
    omega
  have here : read (store s.heap.bytes (b.addr + k) bs) b.addr
    (b.data.take k ++ bs ++ b.data.drop (k + bs.length)).length =
      b.data.take k ++ bs ++ b.data.drop (k + bs.length) := by
    rw [length,read_store_within _ _ fits,holds.reads b (by simp)]
  obtain ⟨slots',holds'⟩ := holds.replace (Nat.le_of_eq length) here fun c there => by
    rw [read_store_apart]
    · exact holds.reads c (others_mem there)
    · refine (holds.others_apart c there).mono ?_ fun _ here => here
      intro x here
      unfold Region.Has at here
      unfold Region.Has Block.region
      simp only at here ⊢
      omega
  exact ⟨slots',Heap.put_covered member covers',holds'⟩

/-- Bytes are stored at the start of the last block. -/
theorem Holds.put_first (holds : Holds s ⟨depth,b :: behind⟩ slots) (bs : List UInt8)
    (fits : bs.length ≤ b.data.length) :
    ∃ slots', s.heap.put b.addr bs = some { s.heap with bytes := store s.heap.bytes b.addr bs } ∧
      Holds { s with heap := { s.heap with bytes := store s.heap.bytes b.addr bs } }
        ⟨depth,{ b with data := bs ++ b.data.drop bs.length } :: behind⟩ slots' := by
  have stored := Holds.put (show Holds s ⟨depth,[] ++ b :: behind⟩ slots from holds) 0 bs (by omega)
  simpa using stored

/-- A block is made smaller. -/
theorem Holds.shrink (holds : Holds s ⟨depth,before ++ b :: behind⟩ slots) (n : Nat) :
    ∃ slots', Holds s ⟨depth,before ++ { b with data := b.data.take n } :: behind⟩ slots' := by
  refine holds.replace ?_ ?_ ?_
  · rw [List.length_take]
    exact Nat.min_le_right _ _
  · have all := holds.reads b (by simp)
    rw [List.length_take,← read_take _ _ (Nat.min_le_right _ _),all,List.take_eq_take_iff]
    omega
  · intro c there
    exact holds.reads c (others_mem there)

/-- A block whose padding ends with the current frame is in that frame: it would be out
    of reach in any other. -/
theorem Holds.last_current (holds : Holds s d slots) (frames : s.arena.frames = f :: fs) {slot : Slot}
    (member : slot ∈ slots)
    (last : alignAddress s.arena.poisonSize (slot.addr + slot.data.length) = f.ptr + f.len) :
    Inside s.arena.poisonSize f slot ∧ slot.stop = f.ptr + f.len := by
  obtain ⟨_,g,frame,inside⟩ := holds.fits.held slot member
  have current : f ∈ s.arena.frames := by rw [frames]; exact List.mem_cons_self
  obtain ⟨_,headerF,lenF,_,_,endsF⟩ := holds.fits.ok f current
  obtain ⟨_,headerG,lenG,_,_,endsG⟩ := holds.fits.ok g frame
  have poison := holds.poison
  obtain ⟨low,data,high,padded⟩ := inside
  have same : g = f := by
    by_contra different
    have symmetric : Std.Symm fun f g : Frame => Apart f.region g.region := ⟨fun _ _ => Apart.symm⟩
    have out := (List.pairwise_map.mp holds.frames).forall frame current different
    simp only [frameHeader] at low headerF headerG
    have sides := out.before_or (by simp only [Frame.region]; omega) (by simp only [Frame.region]; omega)
    rw [alignAddress_eq _ poison (by omega)] at last
    simp only [Frame.region] at sides
    omega
  subst same
  rw [last] at padded
  exact ⟨⟨low,data,high,by rw [last]; exact padded⟩,by omega⟩

/-- The block at the end of the current frame grows there, over memory that no block
    has. -/
theorem Holds.growFast (holds : Holds s ⟨depth,before ++ b :: behind⟩ slots) {n : Nat} (active : 0 < depth)
    (more : b.data.length < n) {frames : List Frame}
    (fast : arenaReallocFast s b.addr b.data.length n = some frames) :
    Extends s.arena.frames frames ∧ ∃ slots', Holds (s.withFrames frames)
      ⟨depth,before ++ ⟨b.addr,b.data ++ read s.heap.bytes (b.addr + b.data.length) (n - b.data.length),depth⟩ ::
        behind⟩ slots' := by
  have apart := holds.apart
  obtain ⟨first,slot,rest,rfl,rfl,rfl,rfl⟩ := holds.split
  unfold arenaReallocFast at fast
  rw [if_neg (by omega)] at fast
  cases there : s.arena.frames with
  | nil => simp [there] at fast
  | cons f fs =>
    have ok := holds.fits.ok f (by rw [there]; exact List.mem_cons_self)
    have ⟨start,header,lenF,_,_,ends⟩ := ok
    obtain ⟨aligned,g,frame,within⟩ := holds.fits.held slot (by simp)
    have small : (slot.addr + slot.data.length) % 2^64 = slot.addr + slot.data.length := by
      have endsG := (holds.fits.ok g frame).ends
      have lenG := (holds.fits.ok g frame).len
      have data := within.data
      have high := within.high
      exact Nat.mod_eq_of_lt (by omega)
    simp only [there,small] at fast
    split_ifs at fast with other
    have last := not_not.mp other
    obtain ⟨⟨low,data,high,_⟩,stop⟩ := holds.last_current there (by simp) last
    have offset : (slot.addr + 2^64 - f.ptr) % 2^64 = slot.addr - f.ptr := by omega
    rw [offset] at fast
    cases pushed : arenaPush s.arena.poisonSize { f with len := slot.addr - f.ptr } n with
    | none => simp [pushed] at fast
    | some out =>
      obtain ⟨p,f'⟩ := out
      simp only [pushed,Option.some.injEq] at fast
      subst fast
      obtain ⟨_,ptr,sized,len,within,lenAligned,is⟩ :=
        arenaPush_spec (f := { f with len := slot.addr - f.ptr }) holds.poison ok.size
        (by simp only; omega) pushed
      simp only at ptr sized len within is
      have place := alignAddress_add f.ptr (slot.addr - f.ptr + n) holds.poison start (by omega)
      have longer : f.len ≤ f'.len := by
        simp only [maxalign] at start
        rw [alignAddress_eq _ holds.poison (by omega)] at last
        rw [is,alignAddress_eq (slot.addr - f.ptr + n) holds.poison (by omega)]
        omega
      have extends_ : Extends s.arena.frames (f' :: fs) := by
        rw [there]
        exact .grown fs ptr sized longer
      have ok' : ∀ h ∈ f' :: fs, FrameOk h := by
        intro h member
        rcases List.mem_cons.mp member with rfl | member
        · exact ok.grown ptr sized longer within lenAligned
        · exact holds.fits.ok h (by rw [there]; exact List.mem_cons_of_mem _ member)
      have length : (slot.data ++ read s.heap.bytes (slot.addr + slot.data.length)
        (n - slot.data.length)).length = n := by
        rw [List.length_append,length_read]
        omega
      let slot' : Slot :=
        ⟨⟨slot.addr,slot.data ++ read s.heap.bytes (slot.addr + slot.data.length) (n - slot.data.length),depth⟩,
        f.ptr + f'.len⟩
      have inside' : Inside s.arena.poisonSize f' slot' := by
        have whole : f.ptr + (slot.addr - f.ptr + n) = slot.addr + n := by omega
        rw [whole] at place
        refine ⟨ptr ▸ low,?_,?_,?_⟩ <;> simp only [slot',length,ptr,sized]
        · omega
        · omega
        · rw [place]
          omega
      obtain ⟨away,between⟩ := List.pairwise_cons.mp ((List.pairwise_middle Apart.symm).mp (by simpa using apart))
      have fits := extends_.fits holds.fits ok'
      refine ⟨there ▸ extends_,first ++ slot' :: rest,holds.withFrames extends_ ?_ ⟨ok',?_⟩ ?_ ?_ ?_ ?_ ?_⟩
      · simp [there,Frame.region,ptr,sized]
      · intro c member
        rcases mem_others member with rfl | member
        · exact ⟨aligned,f',List.mem_cons_self,inside'⟩
        · exact fits.held c (others_mem member)
      · intro c member below
        rcases mem_others member with rfl | member
        · rw [holds.depth] at below
          exact absurd below (Nat.lt_irrefl _)
        · exact ⟨c,others_mem member,.refl c⟩
      · simp [slot']
      · intro c member
        rcases mem_others member with rfl | member
        · exact ⟨active,Nat.le_refl _⟩
        · exact holds.levels c (others_mem member)
      · rw [List.map_append,List.map_cons]
        refine (List.pairwise_middle Apart.symm).mpr (List.pairwise_cons.mpr ⟨?_,between⟩)
        intro r member x here
        by_cases old : x < slot.stop
        · apply away r member x
          unfold Region.Has Slot.whole at here ⊢
          simp only [slot'] at here ⊢
          omega
        · have member' : r ∈ (first ++ rest).map Slot.whole := by rw [List.map_append]; exact member
          obtain ⟨c,there',rfl⟩ := List.mem_map.mp member'
          apply holds.rest_apart there (others_mem there') x
          unfold Region.Has Slot.whole at here
          unfold Region.Has
          simp only [slot'] at here ⊢
          omega
      · intro c member
        rcases mem_others member with rfl | member
        · have all := holds.reads slot.toBlock (by simp)
          rw [length,show n = slot.data.length + (n - slot.data.length) by omega,read_append,all,
            Nat.add_sub_cancel_left]
        · exact holds.reads c (others_mem member)

/-- A block is moved to a new one. -/
theorem Holds.moved {n : Block} (holds : Holds s ⟨depth,n :: (before ++ b :: behind)⟩ slots) :
    ∃ slots', Holds s ⟨depth,before ++ n :: behind⟩ slots' := by
  have layout := holds.layout
  have apart := holds.apart
  obtain ⟨new,others,rfl,rfl,live⟩ := List.map_eq_cons_iff.mp holds.live
  obtain ⟨first,others,rfl,rfl,others_⟩ := List.map_eq_append_iff.mp live
  obtain ⟨slot,rest,rfl,rfl,rfl⟩ := List.map_eq_cons_iff.mp others_
  refine ⟨first ++ new :: rest,{ holds with live := by simp, levels := ?_, layout := ?_, apart := ?_, reads := ?_ }⟩
  · intro c member
    rcases mem_others member with rfl | member
    · exact holds.levels new.toBlock (by simp)
    · exact holds.levels c (List.mem_cons_of_mem _ (others_mem member))
  · refine layout.shrunk holds.poison fun c member => ⟨c,?_,.refl c⟩
    rcases mem_others member with rfl | member
    · exact List.mem_cons_self
    · exact List.mem_cons_of_mem _ (others_mem member)
  · have fewer : (new :: (first ++ rest)).Sublist (new :: (first ++ slot :: rest)) :=
      ((List.Sublist.refl first).append (List.sublist_cons_self slot rest)).cons_cons new
    refine (List.pairwise_map.mpr ?_)
    exact (List.pairwise_middle Apart.symm).mpr ((List.pairwise_map.mp apart).sublist fewer)
  · intro c member
    rcases mem_others member with rfl | member
    · exact holds.reads new.toBlock (by simp)
    · exact holds.reads c (List.mem_cons_of_mem _ (others_mem member))

/-- An allocation that is filled is a new block with what it is filled with. -/
theorem Holds.fill (holds : Holds s d slots) (id : Nat) {room : Room} (bs : List UInt8)
    (fresh : RoomFresh s.heap room) (active : 0 < d.depth) (present : 0 < s.arena.refs) :
    (∃ p s' slots', arenaFill s id bs.length room bs = .ok (p,s') ∧ Kept s s' ∧
      Holds s' { d with live := ⟨p,bs,d.depth⟩ :: d.live } slots') ∨
    ∃ e, arenaFill s id bs.length room bs = .error e ∧ Refuses s id bs.length room e := by
  rcases holds.malloc id bs.length fresh active present with ⟨p,s1,slots1,run,kept,_,holds1⟩ | ⟨e,run,refuses⟩
  · obtain ⟨slots2,put,holds2⟩ := holds1.put_first bs (by simp)
    have none : (read s.heap.bytes p bs.length).drop bs.length = [] := List.drop_eq_nil_of_le (by simp)
    have put : s1.heap.put p bs = some { s1.heap with bytes := store s1.heap.bytes p bs } := put
    refine .inl ⟨p,{ s1 with heap := { s1.heap with bytes := store s1.heap.bytes p bs } },slots2,?_,
      ⟨kept.scopes,kept.freed,kept.frames⟩,by simpa [none] using holds2⟩
    simp [arenaFill,run,put,orFault,Except.map]
  · exact .inr ⟨e,by simp [arenaFill,run],refuses⟩

/-- A block grows: where it is, or by a copy; or that is refused. -/
theorem Holds.grow (holds : Holds s ⟨depth,before ++ b :: behind⟩ slots) (id : Nat) {n : Nat} {room : Room}
    (fresh : RoomFresh s.heap room) (active : 0 < depth) (present : 0 < s.arena.refs)
    (more : b.data.length < n) :
    (∃ p s' slots', arenaRealloc s id (some b.addr) b.data.length n room = .ok (p,s') ∧ Kept s s' ∧
      Holds s' ⟨depth,before ++ ⟨p,b.data ++ read s'.heap.bytes (p + b.data.length) (n - b.data.length),depth⟩ ::
        behind⟩ slots') ∨
    ∃ e, arenaRealloc s id (some b.addr) b.data.length n room = .error e ∧ Refuses s id n room e ∧
      arenaReallocFast s b.addr b.data.length n = none := by
  have aligned : b.addr % maxalign = 0 := holds.sound.aligned b (by simp)
  cases fast : arenaReallocFast s b.addr b.data.length n with
  | some frames =>
    obtain ⟨extends_,slots',holds'⟩ := holds.growFast active more fast
    exact .inl ⟨b.addr,s.withFrames frames,slots',by simp [arenaRealloc,aligned,fast],⟨rfl,rfl,extends_⟩,holds'⟩
  | none =>
    rcases holds.malloc id n fresh active present with ⟨p,s1,slots1,run,kept,bytes,holds1⟩ | ⟨e,run,refuses⟩
    · obtain ⟨q,member,covers⟩ := holds1.covered (b := b) (by simp)
      have old : read s1.heap.bytes b.addr b.data.length = b.data := holds1.reads b (by simp)
      have load : s1.heap.load ⟨b.addr,b.data.length⟩ = some b.data :=
        (Heap.load_covered member covers).trans (congrArg some old)
      obtain ⟨slots2,put,holds2⟩ := holds1.put_first b.data (by simp only [length_read]; omega)
      obtain ⟨slots3,holds3⟩ := Holds.moved holds2
      have put : s1.heap.put p b.data = some { s1.heap with bytes := store s1.heap.bytes p b.data } := put
      refine .inl ⟨p,{ s1 with heap := { s1.heap with bytes := store s1.heap.bytes p b.data } },slots3,?_,
        ⟨kept.scopes,kept.freed,kept.frames⟩,?_⟩
      · simp [arenaRealloc,aligned,fast,run,load,put,orFault,Except.map]
      · have rest : read (store s1.heap.bytes p b.data) (p + b.data.length) (n - b.data.length) =
            (read s.heap.bytes p n).drop b.data.length := by
          rw [← bytes,read_drop _ _ (Nat.le_of_lt more)]
          exact read_congr fun x low _ => store_outside _ (.inr low)
        simpa [rest] using holds3
    · exact .inr ⟨e,by simp [arenaRealloc,aligned,fast,run],refuses,rfl⟩

/-! ## Scopes -/

theorem freeFrames_last {newer older : List Frame} {f : Frame} {heap : Heap}
    (regions : heap.regions = (newer ++ f :: older).map Frame.region) (other : ∀ g ∈ newer, g.ptr ≠ f.ptr) :
    freeFrames (some f.ptr) (newer ++ f :: older) heap =
      .ok (f :: older,{ heap with regions := (f :: older).map Frame.region }) := by
  induction newer generalizing heap with
  | nil =>
    simp only [List.nil_append] at regions ⊢
    simp [freeFrames,← regions]
  | cons g newer ih =>
    have here := other g List.mem_cons_self
    have later := fun h member => other h (List.mem_cons_of_mem _ member)
    have freed : heap.free g.ptr = some { heap with regions := (newer ++ f :: older).map Frame.region } :=
      Heap.free_last regions
    simp only [List.cons_append,freeFrames,Option.some.injEq,here,↓reduceIte,freed]
    exact ih rfl later

theorem freeFrames_all {frames : List Frame} {heap : Heap} (regions : heap.regions = frames.map Frame.region) :
    freeFrames none frames heap = .ok ([],{ heap with regions := [] }) := by
  induction frames generalizing heap with
  | nil => simp only [freeFrames,List.map_nil] at regions ⊢; rw [← regions]
  | cons f fs ih =>
    have freed : heap.free f.ptr = some { heap with regions := fs.map Frame.region } := Heap.free_last regions
    simp only [freeFrames,reduceCtorEq,↓reduceIte,freed]
    exact ih rfl

/-- Where a frame stands tells it from the others. -/
theorem Holds.ptr_ne (holds : Holds s d slots) {newer older : List Frame}
    (split : s.arena.frames = newer ++ f :: older) :
    ∀ g ∈ newer, g.ptr ≠ f.ptr := by
  intro g member same
  have first : g ∈ s.arena.frames := by rw [split]; simp [member]
  have second : f ∈ s.arena.frames := by rw [split]; simp
  have frames := holds.frames
  rw [split,List.map_append,List.map_cons] at frames
  have apart := (List.pairwise_append.mp frames).2.2 g.region (List.mem_map_of_mem member) f.region List.mem_cons_self
  have okG := holds.fits.ok g first
  have okF := holds.fits.ok f second
  refine apart g.ptr ?_ ?_
  · have header := okG.header
    have len := okG.len
    unfold Region.Has Frame.region
    simp only [frameHeader] at header ⊢
    omega
  · have header := okF.header
    have len := okF.len
    unfold Region.Has Frame.region
    simp only [frameHeader] at header ⊢
    omega

theorem Holds.enter (holds : Holds s d slots) (present : 0 < s.arena.refs) :
    ∃ s', arenaScopeEnter s = .ok s' ∧ (∃ f fs, s.arena.frames = f :: fs ∧ s'.arena.frames = f :: fs ∧
      s'.scopes = ⟨some f.ptr,f.len,s.arena.refs+1⟩ :: s.scopes ∧ s'.freed = s.freed) ∧
      Holds s' { d with depth := d.depth+1 } slots := by
  have nonempty : s.arena.frames ≠ [] := fun empty => absurd (holds.there.mp empty) (by omega)
  obtain ⟨f,fs,frames⟩ := List.exists_cons_of_ne_nil nonempty
  refine ⟨{ s with
    arena := { s.arena with refs := s.arena.refs+1 }
    scopes := ⟨some f.ptr,f.len,s.arena.refs+1⟩ :: s.scopes },by simp [arenaScopeEnter,frames],
      ⟨f,fs,frames,frames,rfl,rfl⟩,{ holds with
    depth := ?_, refs := ?_, ids := ?_, there := ?_, levels := ?_, layout := ?_ }⟩
  · simp [holds.depth]
  · simp only [holds.refs]
    omega
  · intro alive i scope found
    have refs := holds.refs
    rw [alive] at refs
    simp only [Bool.false_eq_true,↓reduceIte] at refs
    cases i with
    | zero =>
      cases found
      simp only
      omega
    | succ i =>
      have id := holds.ids alive i scope found
      simp only
      omega
  · simp [frames]
  · intro b member
    have level := holds.levels b member
    exact ⟨level.1,by simp only; omega⟩
  · refine ⟨holds.fits,[],f,fs,frames,rfl,Nat.le_refl _,?_⟩
    have layout := holds.layout
    rw [frames] at layout
    exact layout.shrunk holds.poison fun b member => ⟨b,(List.mem_filter.mp member).1,.refl b⟩

/-- The frames that a scope brings back. -/
def restore (scope : Scope) : List Frame → List Frame
  | [] => []
  | f :: fs => if some f.ptr = scope.frame then { f with len := scope.frameLen } :: fs else restore scope fs

theorem restore_split {scope : Scope} {newer older : List Frame} (mark : scope.frame = some f.ptr)
    (other : ∀ g ∈ newer, g.ptr ≠ f.ptr) :
    restore scope (newer ++ f :: older) = { f with len := scope.frameLen } :: older := by
  induction newer with
  | nil => simp [restore,mark]
  | cons g newer ih =>
    have here := other g List.mem_cons_self
    simp only [List.cons_append,restore,mark,Option.some.injEq,here,↓reduceIte]
    exact ih fun h member => other h (List.mem_cons_of_mem _ member)

/-- Leaving a scope keeps the blocks of the outer ones, and no memory of its own. -/
theorem Holds.leave {depth : Nat} {live : List Block} (holds : Holds s ⟨depth+1,live⟩ slots) :
    ∃ scope scopes s' slots', s.scopes = scope :: scopes ∧ arenaScopeLeave s scope = .ok s' ∧ s'.freed = s.freed ∧
      s'.arena.frames = (if s.arena.refs = 1 then [] else restore scope s.arena.frames) ∧
      Holds { s' with scopes } ⟨depth,live.filter (·.level ≤ depth)⟩ slots' := by
  have length := holds.depth
  obtain ⟨scope,scopes,there⟩ := List.exists_cons_of_length_eq_add_one length
  have depth_ : scopes.length = depth := by simpa [there] using length
  have refs := holds.refs
  have kept : (slots.filter (·.level ≤ depth)).map Slot.toBlock = live.filter (·.level ≤ depth) := by
    rw [show live = slots.map Slot.toBlock from holds.live.symm,List.filter_map]
    rfl
  have ids : s.freed = false → ∀ i scope', scopes[i]? = some scope' → scope'.id + i = depth + 1 := by
    intro alive i scope' found
    have id := holds.ids alive (i+1) scope' (by rw [there]; simpa using found)
    simp only at id
    omega
  have levels : ∀ b ∈ live.filter (·.level ≤ depth), 0 < b.level ∧ b.level ≤ depth := by
    intro b member
    obtain ⟨member,level⟩ := List.mem_filter.mp member
    exact ⟨(holds.levels b member).1,of_decide_eq_true level⟩
  have apart : ((slots.filter (·.level ≤ depth)).map Slot.whole).Pairwise Apart :=
    holds.apart.sublist (List.filter_sublist.map _)
  have reads : ∀ b ∈ live.filter (·.level ≤ depth), read s.heap.bytes b.addr b.data.length = b.data :=
    fun b member => holds.reads b (List.mem_of_mem_filter member)
  have layout := holds.layout
  rw [there] at layout
  obtain ⟨_,newer,f,older,split,mark,len,rest⟩ := layout
  rw [depth_] at rest
  have other := holds.ptr_ne split
  by_cases last : s.arena.refs = 1
  · have none : live.filter (·.level ≤ depth) = [] := by
      rw [List.eq_nil_iff_forall_not_mem]
      intro b member
      have level := levels b member
      simp only at refs
      split at refs <;> omega
    have freed := freeFrames_all holds.regions
    refine ⟨scope,scopes,
      { s with heap := { s.heap with regions := [] }, arena := { s.arena with frames := [], refs := s.arena.refs-1 } },
      slots.filter (·.level ≤ depth),there,by simp [arenaScopeLeave,last,freed,Except.map,resetLen],rfl,by
        simp [last],{ holds with
      depth := depth_, refs := ?_, ids := ids, regions := rfl, frames := .nil, there := ?_, levels := levels
      live := kept, layout := ?_, apart := apart, reads := reads }⟩
    · simp only at refs ⊢
      split at refs <;> split <;> omega
    · simp [last]
    · have empty : slots.filter (·.level ≤ depth) = [] := List.map_eq_nil_iff.mp (kept.trans none)
      have zero : scopes = [] := by
        apply List.eq_nil_of_length_eq_zero
        simp only at refs
        split at refs <;> omega
      rw [empty,zero]
      exact ⟨nofun,nofun⟩
  · have regions := holds.regions
    rw [split] at regions
    have freed := freeFrames_last regions other
    refine ⟨scope,scopes,{ s with
      heap := { s.heap with regions := (f :: older).map Frame.region }
      arena := { s.arena with frames := { f with len := scope.frameLen } :: older, refs := s.arena.refs-1 } },
      slots.filter (·.level ≤ depth),there,by simp [arenaScopeLeave,last,mark,split,freed,Except.map,resetLen,len],
        rfl,?_,{ holds with
      depth := depth_, refs := ?_, ids := ids, regions := rfl, frames := ?_, there := ?_, levels := levels
      live := kept, layout := rest, apart := apart, reads := reads }⟩
    · simp only [last,↓reduceIte,split,restore_split mark other]
    · simp only at refs ⊢
      omega
    · have frames := holds.frames
      rw [split,List.map_append] at frames
      exact (List.pairwise_append.mp frames).2.1
    · simp only [reduceCtorEq,false_iff] at refs ⊢
      omega

theorem Holds.free (holds : Holds s d slots) (alive : s.freed = false) :
    ∃ s' slots', arenaFree s = .ok s' ∧ s'.freed = true ∧ Holds s' d slots' := by
  have refs := holds.refs
  rw [alive] at refs
  simp only [Bool.false_eq_true,↓reduceIte] at refs
  by_cases nested : 1 < s.arena.refs
  · refine ⟨{ s with arena := { s.arena with refs := s.arena.refs-1 }, freed := true },slots,
      by simp [arenaFree,nested],rfl,{ holds with
      refs := ?_, ids := nofun, there := ?_ }⟩
    · simp only [↓reduceIte]
      omega
    · simp only [holds.there]
      omega
  · have zero : d.depth = 0 := by omega
    have one : s.arena.refs = 1 := by omega
    have none : slots = [] := by
      rw [List.eq_nil_iff_forall_not_mem]
      intro b member
      have level := holds.levels b.toBlock (by rw [← holds.live]; exact List.mem_map_of_mem member)
      omega
    have freed := freeFrames_all holds.regions
    refine ⟨{ s with
        heap := { s.heap with regions := [] }
        arena := { s.arena with frames := [], refs := s.arena.refs-1 }
        freed := true },
      slots,by simp [arenaFree,arenaScopeLeave,one,freed,Except.map,resetLen],rfl,{ holds with
      refs := ?_, ids := nofun, regions := rfl, frames := .nil, there := ?_, layout := ?_ }⟩
    · simp only [↓reduceIte]
      omega
    · simp [one]
    · have scopes : s.scopes = [] := List.eq_nil_of_length_eq_zero (holds.depth.trans zero)
      simp only [scopes,none]
      exact ⟨nofun,nofun⟩

end

end Robsd.Arenas
