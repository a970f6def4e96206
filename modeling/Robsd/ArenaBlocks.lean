import Robsd.ArenaCalls

/-!
Programs with an arena. In every run the blocks are as the program left them, apart from
each other, and in allocated memory (`ran_sound`); leaving a scope puts the arena back to
where it was when the scope was entered (`leave_restores`); and allocations that an inner
scope would free are caught where they are validated (`ran_traps`).
-/
namespace Robsd.Arenas
open Robsd.Memory

/-! ## Runs -/

section
variable {s s' : State} {d d' : Blocks} {slots : List Slot}

theorem start_holds {heap : Heap} {pageSize poisonSize : Nat} {room : Room} (page : 4096 ≤ pageSize)
    (poison : poisonSize = 0 ∨ poisonSize = 8) (empty : heap.regions = []) (fresh : RoomFresh heap room)
    (alloc : arenaAlloc heap pageSize poisonSize room = .ok s) : Holds s ⟨0,[]⟩ [] := by
  unfold arenaAlloc at alloc
  cases place : room (16*pageSize) with
  | none => simp [arenaFrameAlloc,place] at alloc
  | some ptr =>
    obtain ⟨_,aligned,ends⟩ := fresh _ ptr place
    rcases arenaFrameAlloc_spec ⟨heap,⟨[],16*pageSize,poisonSize,1⟩,[],false⟩ (n := 16*pageSize) room (by omega)
        (by simp only [frameHeader]; omega) with ⟨none,_⟩ | ⟨ptr',p,f,place',pushed,run⟩
    · rw [place] at none
      cases none
    · rw [place] at place'
      cases place'
      rw [run] at alloc
      cases alloc
      simp only at pushed
      obtain ⟨_,ptr_,size_,len,within,lenAligned,_⟩ :=
        arenaPush_spec (f := ⟨ptr,16*pageSize,0⟩) poison (by simp only; omega) (by simp only; omega) pushed
      simp only at ptr_ size_ len within
      have ok : FrameOk f := ⟨ptr_ ▸ aligned,by omega,by omega,lenAligned,
        by rw [size_]; simp only [maxalign]; omega,by omega⟩
      refine ⟨poison,⟨?_,?_,?_⟩,rfl,rfl,by simp [State.withFrames],?_,?_,?_,by simp,rfl,⟨?_,by simp⟩,.nil,by simp⟩
      · simp only [State.withFrames]
        omega
      · simp only [State.withFrames]
        omega
      · simp only [State.withFrames]
        omega
      · simp [State.withFrames,Heap.alloc,empty,Frame.region,ptr_,size_]
      · simp [State.withFrames]
      · simp [State.withFrames]
      · intro g member
        rw [List.mem_singleton.mp member]
        exact ok

/-- The scope of an allocation. -/
theorem Holds.scope (holds : Holds s d slots) {i : Nat} (active : i < d.depth) :
    ∃ scope, s.scopes[i]? = some scope ∧ (s.freed = false → (scope.id = s.arena.refs ↔ i = 0)) := by
  have within : i < s.scopes.length := by rw [holds.depth]; exact active
  refine ⟨s.scopes[i],List.getElem?_eq_getElem within,fun alive => ?_⟩
  have id := holds.ids alive i _ (List.getElem?_eq_getElem within)
  have refs := holds.refs
  rw [alive] at refs
  simp only [Bool.false_eq_true,↓reduceIte] at refs
  omega

/-- An allocation through a scope ends the program. It is refused for its scope only
    where that is not the innermost one, or the arena was freed while it was active. -/
def Refused (s : State) (i size : Nat) (room : Room) (e : Stop) : Prop :=
  ∃ scope, s.scopes[i]? = some scope ∧ Refuses s scope.id size room e ∧ (e = .trap → 0 < i ∨ s.freed = true)

/-- What a call may end the program with. A block that grows does so only where it
    cannot stay in its place. -/
def Ends (s : State) : Call → Stop → Prop
  | .malloc i size room, e => Refused s i size room e
  | .calloc i nmemb size room, e => Refused s i (nmemb * size) room e
  | .strndup i src room, e => Refused s i (src.length+1) room e
  | .realloc i ptr old new room, e => Refused s i new room e ∧ ∀ p, ptr = some p → arenaReallocFast s p old new = none
  | _, _ => False

/-- The arena is there as long as a scope is. -/
theorem Holds.present (holds : Holds s d slots) (active : 0 < d.depth) : 0 < s.arena.refs := by
  rw [holds.refs]
  omega

theorem Holds.inScope (holds : Holds s d slots) {i size : Nat} (active : i < d.depth) {room : Room}
    {f : Nat → Except Stop (Nat × State)} {Q : Nat → State → Prop} {R : Prop}
    (spec : ∀ id, (∃ p s', f id = .ok (p,s') ∧ Q p s') ∨ ∃ e, f id = .error e ∧ Refuses s id size room e ∧ R) :
    (∃ p s', s.inScope i f = .ok (some p,s') ∧ Q p s') ∨ ∃ e, s.inScope i f = .error e ∧
      Refused s i size room e ∧ R := by
  obtain ⟨scope,found,innermost⟩ := holds.scope active
  rcases spec scope.id with ⟨p,s',run,holds'⟩ | ⟨e,run,refuses,rest⟩
  · exact .inl ⟨p,s',by simp [State.inScope,found,run,Except.map],holds'⟩
  · refine .inr ⟨e,by simp [State.inScope,found,run,Except.map],⟨scope,found,refuses,?_⟩,rest⟩
    rintro rfl
    cases refuses with
    | trap invalid =>
      cases freed : s.freed with
      | false => exact .inl (Nat.pos_of_ne_zero fun zero => invalid ((innermost freed).mpr zero))
      | true => exact .inr rfl

/-- An allocation of any kind. -/
theorem Holds.allocs (holds : Holds s d slots) (id size : Nat) {room : Room} (fresh : RoomFresh s.heap room)
    (active : 0 < d.depth) :
    (∃ p s', arenaMalloc s id size room = .ok (p,s') ∧ Kept s s' ∧
      ∃ slots', Holds s' { d with live := ⟨p,read s'.heap.bytes p size,d.depth⟩ :: d.live } slots') ∨
    ∃ e, arenaMalloc s id size room = .error e ∧ Refuses s id size room e ∧ True := by
  rcases holds.malloc id size fresh active (holds.present active) with
    ⟨p,s',slots',run,kept,bytes,holds'⟩ | ⟨e,run,refuses⟩
  · rw [← bytes] at holds'
    exact .inl ⟨p,s',run,kept,slots',holds'⟩
  · exact .inr ⟨e,run,refuses,trivial⟩

/-- A size that does not fit into 64 bits is in no frame. -/
theorem Holds.refuses_large (holds : Holds s d slots) (id : Nat) {size : Nat} (room : Room) (large : 2^64 ≤ size) :
    Refuses s id size room .large := by
  refine .large ?_ fun n ⟨_,_,enough,_⟩ => by omega
  intro f current
  have ends := (holds.fits.ok f (List.mem_of_mem_head? current)).ends
  omega

theorem Holds.callocs (holds : Holds s d slots) (id nmemb size : Nat) {room : Room}
    (fresh : RoomFresh s.heap room) (active : 0 < d.depth) :
    (∃ p s', arenaCalloc s id nmemb size room = .ok (p,s') ∧ Kept s s' ∧
      ∃ slots', Holds s' { d with live := ⟨p,List.replicate (nmemb * size) 0,d.depth⟩ :: d.live } slots') ∨
    ∃ e, arenaCalloc s id nmemb size room = .error e ∧ Refuses s id (nmemb * size) room e ∧ True := by
  unfold arenaCalloc
  split_ifs with large
  · exact .inr ⟨.large,rfl,holds.refuses_large id room large,trivial⟩
  · have filled := holds.fill id (List.replicate (nmemb * size) 0) fresh active (holds.present active)
    rw [List.length_replicate] at filled
    rcases filled with ⟨p,s',slots',run,kept,holds'⟩ | ⟨e,run,refuses⟩
    · exact .inl ⟨p,s',run,kept,slots',holds'⟩
    · exact .inr ⟨e,run,refuses,trivial⟩

theorem Holds.strndups (holds : Holds s d slots) (id : Nat) (src : List UInt8) {room : Room}
    (fresh : RoomFresh s.heap room) (active : 0 < d.depth) :
    (∃ p s', arenaStrndup s id src room = .ok (p,s') ∧ Kept s s' ∧
      ∃ slots', Holds s' { d with live := ⟨p,src ++ [0],d.depth⟩ :: d.live } slots') ∨
    ∃ e, arenaStrndup s id src room = .error e ∧ Refuses s id (src.length+1) room e ∧ True := by
  unfold arenaStrndup
  split_ifs with large
  · exact .inr ⟨.large,rfl,holds.refuses_large id room large,trivial⟩
  · have filled := holds.fill id (src ++ [0]) fresh active (holds.present active)
    rw [List.length_append,List.length_singleton] at filled
    rcases filled with ⟨p,s',slots',run,kept,holds'⟩ | ⟨e,run,refuses⟩
    · exact .inl ⟨p,s',run,kept,slots',holds'⟩
    · exact .inr ⟨e,run,refuses,trivial⟩

theorem Holds.reallocs (holds : Holds s d slots) (id ptr old n : Nat) {room : Room} (i : Nat)
    (fresh : RoomFresh s.heap room) (active : 0 < d.depth)
    (there : ∃ b ∈ d.live, b.addr = ptr ∧ old ≤ b.data.length) :
    (∃ p s', arenaRealloc s id (some ptr) old n room = .ok (p,s') ∧ Kept s s' ∧
      (∃ d', Takes s'.heap.bytes d (.realloc i (some ptr) old n room) (some p) d') ∧
      ∀ d', Takes s'.heap.bytes d (.realloc i (some ptr) old n room) (some p) d' → ∃ slots', Holds s' d' slots') ∨
    ∃ e, arenaRealloc s id (some ptr) old n room = .error e ∧ Refuses s id n room e ∧
      arenaReallocFast s ptr old n = none := by
  obtain ⟨depth,live⟩ := d
  obtain ⟨b,member,addr,fits⟩ := there
  obtain ⟨before,behind,split⟩ := List.append_of_mem member
  by_cases less : n ≤ old
  · have aligned : ptr % maxalign = 0 := addr ▸ holds.sound.aligned b member
    have run : arenaRealloc s id (some ptr) old n room = .ok (ptr,s) := by
      simp [arenaRealloc,aligned,arenaReallocFast,less,State.withFrames]
    refine .inl ⟨ptr,s,run,⟨rfl,rfl,.same _⟩,?_,?_⟩
    · subst addr
      rw [show live = before ++ b :: behind from split]
      exact ⟨_,.shrink depth before b behind i old n room fits less⟩
    · intro d' takes
      cases takes with
      | shrink _ before b behind => exact holds.shrink n
      | grow _ before b behind _ _ _ _ _ more => omega
  · have grows : ∀ before b behind, live = before ++ b :: behind → b.addr = ptr → old ≤ b.data.length →
        (∃ p s' slots', arenaRealloc s id (some ptr) old n room = .ok (p,s') ∧ Kept s s' ∧
          Holds s' ⟨depth,before ++ ⟨p,b.data.take old ++ read s'.heap.bytes (p + old) (n - old),depth⟩ :: behind⟩
            slots') ∨
        ∃ e, arenaRealloc s id (some ptr) old n room = .error e ∧ Refuses s id n room e ∧
          arenaReallocFast s ptr old n = none := by
      rintro before b behind rfl rfl fits
      have length : (b.data.take old).length = old := by rw [List.length_take]; omega
      -- What is behind the given size may get lost: the block is as good as one of that size.
      obtain ⟨slots1,holds1⟩ := holds.shrink old
      have grown := holds1.grow id (n := n) fresh active (holds.present active) (by rw [length]; omega)
      rw [length] at grown
      exact grown
    rcases grows before b behind split addr fits with ⟨p,s',slots',run,kept,_⟩ | refused
    · refine .inl ⟨p,s',run,kept,?_,?_⟩
      · subst addr
        rw [show live = before ++ b :: behind from split]
        exact ⟨_,.grow depth before b behind i old n room fits (by omega) p⟩
      · intro d' takes
        cases takes with
        | shrink _ before b behind _ _ _ _ _ less' => omega
        | grow _ before b behind _ _ _ _ fits =>
          rcases grows before b behind rfl rfl fits with ⟨p',s'',slots'',run',_,holds''⟩ | ⟨e,run',_⟩
          · rw [run] at run'
            cases run'
            exact ⟨slots'',holds''⟩
          · rw [run] at run'
            cases run'
    · exact .inr refused

/-- What a call does to the scopes and the frames. -/
def Moves (s : State) : Call → State → Prop
  | .enter, s' => ∃ f fs, s.arena.frames = f :: fs ∧ s'.arena.frames = f :: fs ∧
      s'.scopes = ⟨some f.ptr,f.len,s.arena.refs+1⟩ :: s.scopes ∧ s'.freed = s.freed
  | .leave, s' => ∃ scope, s.scopes = scope :: s'.scopes ∧
      s'.arena.frames = (if s.arena.refs = 1 then [] else restore scope s.arena.frames) ∧ s'.freed = s.freed
  | .free, s' => s'.freed = true
  | _, s' => Kept s s'

/-- A call does what it says about the blocks, or the program ends for one of the
    reasons there are. -/
theorem call_holds (holds : Holds s d slots) (c : Call) (allowed : c.Allowed d s.freed) (fresh : c.Fresh s.heap) :
    (∃ out s', call s c = .ok (out,s') ∧ Moves s c s' ∧ (∃ d', Takes s'.heap.bytes d c out d') ∧
      ∀ d', Takes s'.heap.bytes d c out d' → ∃ slots', Holds s' d' slots') ∨
    ∃ e, call s c = .error e ∧ Ends s c e := by
  cases c with
  | enter =>
    have present : 0 < s.arena.refs := by
      rw [holds.refs]
      cases freed : s.freed with
      | false => simp
      | true =>
        have active : 0 < d.depth := allowed freed
        omega
    obtain ⟨s',run,moves,holds'⟩ := holds.enter present
    refine .inl ⟨none,s',by simp [call,run,Except.map],moves,⟨_,.enter d⟩,?_⟩
    intro d' takes
    cases takes
    exact ⟨slots,holds'⟩
  | leave =>
    obtain ⟨depth,live⟩ := d
    obtain ⟨depth,rfl⟩ := Nat.exists_eq_succ_of_ne_zero (Nat.ne_of_gt allowed)
    obtain ⟨scope,scopes,s',slots',there,run,freed,frames,holds'⟩ := holds.leave
    refine .inl ⟨none,{ s' with scopes },by simp [call,there,run,Except.map],⟨scope,there,frames,freed⟩,
      ⟨_,.leave depth live⟩,?_⟩
    intro d' takes
    cases takes
    exact ⟨slots',holds'⟩
  | malloc i size room =>
    rcases holds.inScope allowed (holds.allocs · size fresh (Nat.zero_lt_of_lt allowed)) with
      ⟨p,s',run,kept,slots',holds'⟩ | ⟨e,run,refused,_⟩
    · refine .inl ⟨some p,s',run,kept,⟨_,.malloc d i size room p⟩,?_⟩
      intro d' takes
      cases takes
      exact ⟨slots',holds'⟩
    · exact .inr ⟨e,run,refused⟩
  | calloc i nmemb size room =>
    rcases holds.inScope allowed (holds.callocs · nmemb size fresh (Nat.zero_lt_of_lt allowed)) with
      ⟨p,s',run,kept,slots',holds'⟩ | ⟨e,run,refused,_⟩
    · refine .inl ⟨some p,s',run,kept,⟨_,.calloc d i nmemb size room p⟩,?_⟩
      intro d' takes
      cases takes
      exact ⟨slots',holds'⟩
    · exact .inr ⟨e,run,refused⟩
  | strndup i src room =>
    rcases holds.inScope allowed (holds.strndups · src fresh (Nat.zero_lt_of_lt allowed)) with
      ⟨p,s',run,kept,slots',holds'⟩ | ⟨e,run,refused,_⟩
    · refine .inl ⟨some p,s',run,kept,⟨_,.strndup d i src room p⟩,?_⟩
      intro d' takes
      cases takes
      exact ⟨slots',holds'⟩
    · exact .inr ⟨e,run,refused⟩
  | realloc i ptr old n room =>
    obtain ⟨active,there⟩ := allowed
    cases ptr with
    | none =>
      rcases holds.inScope active (holds.allocs · n fresh (Nat.zero_lt_of_lt active)) with
        ⟨p,s',run,kept,slots',holds'⟩ | ⟨e,run,refused,_⟩
      · refine .inl ⟨some p,s',run,kept,⟨_,.reallocNull d i old n room p⟩,?_⟩
        intro d' takes
        cases takes
        exact ⟨slots',holds'⟩
      · exact .inr ⟨e,run,refused,nofun⟩
    | some ptr =>
      rcases holds.inScope active (holds.reallocs · ptr old n i fresh (Nat.zero_lt_of_lt active) (there ptr rfl)) with
        ⟨p,s',run,kept,takes,holds'⟩ | ⟨e,run,refused,moved⟩
      · exact .inl ⟨some p,s',run,kept,takes,holds'⟩
      · exact .inr ⟨e,run,refused,fun p same => Option.some.inj same ▸ moved⟩
  | write addr bs =>
    obtain ⟨depth,live⟩ := d
    have puts : ∀ before b behind k, live = before ++ b :: behind → b.addr + k = addr → k + bs.length ≤ b.data.length →
        s.heap.put addr bs = some { s.heap with bytes := store s.heap.bytes addr bs } ∧
        ∃ slots', Holds { s with heap := { s.heap with bytes := store s.heap.bytes addr bs } }
          ⟨depth,before ++ { b with data := b.data.take k ++ bs ++ b.data.drop (k + bs.length) } :: behind⟩ slots' := by
      rintro before b behind k rfl rfl fits
      obtain ⟨slots',put,holds'⟩ := holds.put k bs fits
      exact ⟨put,slots',holds'⟩
    obtain ⟨b,member,low,high⟩ := allowed
    obtain ⟨before,behind,split⟩ := List.append_of_mem member
    obtain ⟨k,rfl⟩ := Nat.exists_eq_add_of_le low
    have fits : k + bs.length ≤ b.data.length := by
      simp only [Block.region] at high
      omega
    have put := (puts before b behind k split rfl fits).1
    refine .inl ⟨none,{ s with heap := { s.heap with bytes := store s.heap.bytes (b.region.addr + k) bs } },
      by simp [call,put,orFault,Except.map],⟨rfl,rfl,.same _⟩,?_,?_⟩
    · rw [show live = before ++ b :: behind from split]
      exact ⟨_,.write depth before b behind k bs fits⟩
    · intro d' takes
      generalize same : b.region.addr + k = addr at takes puts
      cases takes with
      | write _ before' b' behind' k' _ fits' => exact (puts before' b' behind' k' rfl rfl fits').2
  | free =>
    obtain ⟨s',slots',run,freed,holds'⟩ := holds.free allowed
    refine .inl ⟨none,s',by simp [call,run,Except.map],freed,⟨_,.free d⟩,?_⟩
    intro d' takes
    cases takes
    exact ⟨slots',holds'⟩

theorem ran_holds (ran : Ran s d) : ∃ slots, Holds s d slots := by
  induction ran with
  | start page poison empty fresh alloc => exact ⟨[],start_holds page poison empty fresh alloc⟩
  | call _ allowed fresh run takes ih =>
    obtain ⟨slots,holds⟩ := ih
    rcases call_holds holds _ allowed fresh with ⟨out,s',run',_,_,holds'⟩ | ⟨e,run',_⟩
    · rw [run] at run'
      cases run'
      exact holds' _ takes
    · rw [run] at run'
      cases run'

/-! ## Validation -/

theorem arenaFrameAlloc_error {n : Nat} {room : Room} {e : Stop} (ended : arenaFrameAlloc s n room = .error e) :
    e = .fault := by
  unfold arenaFrameAlloc at ended
  split at ended
  · cases ended
  · split at ended
    · simp only [orFault] at ended
      split at ended <;> cases ended
      rfl
    · cases ended

/-- A scope is validated exactly. -/
theorem arenaMalloc_trap (s : State) (id size : Nat) (room : Room) :
    arenaMalloc s id size room = .error .trap ↔ id ≠ s.arena.refs := by
  constructor
  · intro ended valid
    unfold arenaMalloc at ended
    rw [if_neg (not_not.mpr valid)] at ended
    split at ended
    · cases ended
    split at ended
    · cases ended
    unfold arenaMallocFrame at ended
    simp only at ended
    split_ifs at ended
    · cases ended
    split at ended
    · cases ended
    split at ended
    · next failed =>
      cases ended
      cases arenaFrameAlloc_error failed
    · cases ended
    · split at ended
      · cases ended
      · split at ended <;> cases ended
  · intro invalid
    simp [arenaMalloc,invalid]

theorem arenaFill_trap (s : State) (id size : Nat) (room : Room) (bs : List UInt8) :
    arenaFill s id size room bs = .error .trap ↔ id ≠ s.arena.refs := by
  rw [← arenaMalloc_trap s id size room,arenaFill]
  cases arenaMalloc s id size room with
  | error e => simp
  | ok out =>
    obtain ⟨ptr,s'⟩ := out
    cases put : s'.heap.put ptr bs <;> simp [put,orFault,Except.map]

/-- A call through a scope traps where the function does. -/
theorem inScope_trap {i : Nat} {scope : Scope} (found : s.scopes[i]? = some scope)
    (f : Nat → Except Stop (Nat × State)) :
    s.inScope i f = .error .trap ↔ f scope.id = .error .trap := by
  simp only [State.inScope,found]
  cases f scope.id <;> simp [Except.map]

/-- A freed arena that still has scopes takes the second one for the innermost one. -/
theorem Holds.free_traps (holds : Holds s d slots) (alive : s.freed = false) {out : Option Nat}
    (run : call s .free = .ok (out,s')) {i : Nat} (active : i < d.depth) (size : Nat) (room : Room) :
    call s' (.malloc i size room) = .error .trap ↔ i ≠ 1 := by
  obtain ⟨scope,found,_⟩ := holds.scope active
  have id := holds.ids alive i scope found
  have refs := holds.refs
  rw [alive] at refs
  simp only [Bool.false_eq_true,↓reduceIte] at refs
  have nested : 1 < s.arena.refs := by omega
  simp only [call,arenaFree,nested,↓reduceIte,Except.map,Except.ok.injEq,Prod.mk.injEq] at run
  have refs' : s'.arena.refs = s.arena.refs-1 := by rw [← run.2]
  have found' : s'.scopes[i]? = some scope := by rw [← run.2]; exact found
  rw [call,inScope_trap found',arenaMalloc_trap]
  omega

/-! ## Soundness -/

/-- In every run of a program with an arena its blocks are as it left them, apart from
    each other, and in allocated memory; and a call does what it says about the blocks
    or ends the program for want of memory for the frame it needs, for a frame that would
    be too large, or because its scope is not the innermost one. Once the arena is freed
    the innermost scope is not valid anymore, and the one around it is. -/
theorem ran_sound (ran : Ran s d) : Sound s d ∧
    (∀ c : Call, c.Allowed d s.freed → c.Fresh s.heap →
      (∃ out s', call s c = .ok (out,s') ∧ ∃ d', Takes s'.heap.bytes d c out d') ∨
        ∃ e, call s c = .error e ∧ Ends s c e) ∧
    ∀ out s', s.freed = false → call s .free = .ok (out,s') → ∀ i < d.depth, ∀ size room,
      call s' (.malloc i size room) = .error .trap ↔ i ≠ 1 := by
  obtain ⟨slots,holds⟩ := ran_holds ran
  refine ⟨holds.sound,?_,fun out s' alive run i active size room =>
    holds.free_traps alive run active size room⟩
  intro c allowed fresh
  rcases call_holds holds c allowed fresh with ⟨out,s',run,_,takes,_⟩ | ended
  · exact .inl ⟨out,s',run,takes⟩
  · exact .inr ended

/-! ## Leaving a scope -/

/-- What is reached from a state without leaving its innermost scope or freeing the
    arena. -/
inductive Nested (s₁ : State) (d₁ : Blocks) : State → Blocks → Prop
  | here : Nested s₁ d₁ s₁ d₁
  | call {s s' : State} {d d' : Blocks} {c : Call} {out : Option Nat} (before : Nested s₁ d₁ s d)
    (allowed : c.Allowed d s.freed) (fresh : c.Fresh s.heap) (keeps : c ≠ .free)
    (run : call s c = .ok (out,s')) (takes : Takes s'.heap.bytes d c out d') (inside : d₁.depth ≤ d'.depth) :
    Nested s₁ d₁ s' d'

/-- The frames after some scopes have been left. -/
def unwind : List Scope → List Frame → List Frame
  | [], frames => frames
  | scope :: scopes, frames => unwind scopes (restore scope frames)

/-- An allocation does not change what the innermost scope brings back. -/
theorem Kept.restores {d d' : Blocks} {slots slots' : List Slot} (kept : Kept s s') (holds : Holds s d slots)
    (holds' : Holds s' d' slots') {scope : Scope} {scopes : List Scope} (there : s.scopes = scope :: scopes) :
    restore scope s'.arena.frames = restore scope s.arena.frames := by
  have layout := holds.layout
  rw [there] at layout
  obtain ⟨_,newer,f,older,split,mark,_⟩ := layout
  obtain ⟨newer',f',split',ptr,size,_⟩ := kept.frames.cut split
  rw [split,split',restore_split mark (holds.ptr_ne split),restore_split (ptr ▸ mark) (holds'.ptr_ne split'),ptr,size]

/-- Scopes above some others, and that leaving them brings back some frames. -/
structure Above (scope : Scope) (scopes : List Scope) (frames : List Frame) (s : State) : Prop where
  alive : s.freed = false
  unwinds : ∃ above, s.scopes = above ++ scope :: scopes ∧ restore scope (unwind above s.arena.frames) = frames

theorem step_above {scope : Scope} {scopes : List Scope} {frames : List Frame} {d' : Blocks}
    {slots' : List Slot} {c : Call} {out : Option Nat} {bytes : Bytes} (above : Above scope scopes frames s)
    (holds : Holds s d slots) (holds' : Holds s' d' slots') (keeps : c ≠ .free) (moves : Moves s c s')
    (takes : Takes bytes d c out d') (inside : scopes.length + 1 ≤ d'.depth) :
    Above scope scopes frames s' := by
  obtain ⟨alive,outer,there,unwinds⟩ := above
  have other : Kept s s' → Above scope scopes frames s' := by
    intro kept
    refine ⟨kept.freed.trans alive,outer,kept.scopes.trans there,?_⟩
    cases outer with
    | nil => rw [unwind,kept.restores holds holds' there]; exact unwinds
    | cons first outer => rw [unwind,kept.restores holds holds' there]; exact unwinds
  cases c with
  | enter =>
    obtain ⟨f,fs,frames_,frames',scopes',freed⟩ := moves
    refine ⟨freed.trans alive,_ :: outer,by rw [scopes',there]; rfl,?_⟩
    rw [frames_] at unwinds
    simp only [unwind,restore,frames',↓reduceIte]
    exact unwinds
  | leave =>
    obtain ⟨first,there',frames',freed⟩ := moves
    have refs := holds.refs
    rw [alive] at refs
    simp only [Bool.false_eq_true,↓reduceIte] at refs
    have depth := holds.depth
    have depth' := holds'.depth
    rw [there] at there' depth
    cases outer with
    | nil =>
      obtain ⟨_,rest⟩ := List.cons.inj there'
      rw [← rest] at depth'
      omega
    | cons next outer =>
      obtain ⟨rfl,rest⟩ := List.cons.inj there'
      simp only [List.cons_append,List.length_cons,List.length_append] at depth
      rw [if_neg (by omega)] at frames'
      refine ⟨freed.trans alive,outer,rest.symm,?_⟩
      rw [frames']
      exact unwinds
  | free => exact absurd rfl keeps
  | malloc => exact other moves
  | calloc => exact other moves
  | strndup => exact other moves
  | realloc => exact other moves
  | write => exact other moves

/-- Leaving a scope puts an arena back to where it was when the scope was entered,
    whatever was allocated and whichever scopes were entered meanwhile: the same frames
    as long as they were, and no other memory. -/
theorem leave_restores {s₁ s₂ s₃ : State} {d₂ : Blocks} {out out' : Option Nat} (ran : Ran s d)
    (alive : s.freed = false) (entered : call s .enter = .ok (out,s₁))
    (nested : Nested s₁ { d with depth := d.depth+1 } s₂ d₂) (back : d₂.depth = d.depth+1)
    (left : call s₂ .leave = .ok (out',s₃)) :
    s₃.arena.frames = s.arena.frames ∧ s₃.heap.regions = s.heap.regions ∧ s₃.scopes = s.scopes ∧
      s₃.arena.refs = s.arena.refs := by
  obtain ⟨slots,holds⟩ := ran_holds ran
  obtain ⟨_,_,run₁,⟨f,fs,frames,frames₁,scopes₁,freed₁⟩,⟨_,takes₁⟩,holds₁⟩ | ⟨_,_,ended⟩ :=
    call_holds holds .enter (fun gone => by rw [alive] at gone; cases gone) trivial
  swap
  · exact ended.elim
  rw [entered] at run₁
  cases run₁
  cases takes₁
  have invariant : Above ⟨some f.ptr,f.len,s.arena.refs+1⟩ s.scopes s.arena.frames s₂ ∧ ∃ slots, Holds s₂ d₂ slots := by
    clear back left
    induction nested with
    | here =>
      refine ⟨⟨freed₁.trans alive,[],scopes₁,?_⟩,holds₁ _ (.enter d)⟩
      simp only [unwind,frames₁,restore,↓reduceIte,frames]
    | call _ allowed fresh keeps run takes inside ih =>
      obtain ⟨above,slots,holds⟩ := ih
      obtain ⟨_,_,run',moves,_,holds'⟩ | ⟨_,run',_⟩ := call_holds holds _ allowed fresh
      · rw [run] at run'
        cases run'
        obtain ⟨slots',holds'⟩ := holds' _ takes
        refine ⟨step_above above holds holds' keeps moves takes ?_,slots',holds'⟩
        have depth := (ran_holds ran).choose_spec.depth
        simp only at inside
        omega
      · rw [run] at run'
        cases run'
  obtain ⟨⟨alive₂,outer,there,unwinds⟩,slots₂,holds₂⟩ := invariant
  obtain ⟨depth₂,live₂⟩ := d₂
  obtain rfl : depth₂ = d.depth+1 := back
  obtain ⟨_,_,run₃,⟨first,there₃,frames₃,freed₃⟩,⟨_,takes₃⟩,holds₃⟩ | ⟨_,_,ended⟩ :=
    call_holds holds₂ .leave (Nat.succ_pos _) trivial
  swap
  · exact ended.elim
  rw [left] at run₃
  cases run₃
  obtain ⟨slots₃,holds₃⟩ := holds₃ _ takes₃
  cases takes₃
  have none : outer = [] := by
    have depth := holds.depth
    have depth₂ := holds₂.depth
    rw [there] at depth₂
    simp only [List.length_append,List.length_cons] at depth₂
    exact List.eq_nil_of_length_eq_zero (by omega)
  subst none
  rw [there] at there₃
  obtain ⟨rfl,scopes₃⟩ := List.cons.inj there₃
  have refs := holds.refs
  have refs₂ := holds₂.refs
  have refs₃ := holds₃.refs
  rw [alive] at refs
  rw [alive₂] at refs₂
  rw [freed₃,alive₂] at refs₃
  simp only [Bool.false_eq_true,↓reduceIte] at refs refs₂ refs₃
  have same : s₃.arena.frames = s.arena.frames := by
    rw [frames₃,if_neg (by omega)]
    exact unwinds
  exact ⟨same,by rw [holds₃.regions,holds.regions,same],scopes₃.symm,by omega⟩

/-- An allocation traps exactly where the scope is not the innermost one, if its size is
    one at all; a block that grows in its place does not trap, whatever the scope. -/
theorem ran_traps (ran : Ran s d) (alive : s.freed = false) {i : Nat} (active : i < d.depth) (room : Room) :
    (∀ size, call s (.malloc i size room) = .error .trap ↔ 0 < i) ∧
    (∀ nmemb size, call s (.calloc i nmemb size room) = .error .trap ↔ 0 < i ∧ nmemb * size < 2^64) ∧
    (∀ src, call s (.strndup i src room) = .error .trap ↔ 0 < i ∧ src.length+1 < 2^64) ∧
    (∀ old n, call s (.realloc i none old n room) = .error .trap ↔ 0 < i) ∧
    ∀ ptr old n, (∃ b ∈ d.live, b.addr = ptr ∧ old ≤ b.data.length) →
      (call s (.realloc i (some ptr) old n room) = .error .trap ↔ 0 < i ∧ arenaReallocFast s ptr old n = none) := by
  obtain ⟨slots,holds⟩ := ran_holds ran
  obtain ⟨scope,found,innermost⟩ := holds.scope active
  have outer : scope.id ≠ s.arena.refs ↔ 0 < i := by rw [Ne,innermost alive,Nat.pos_iff_ne_zero]
  refine ⟨?_,?_,?_,?_,?_⟩
  · intro size
    rw [call,inScope_trap found,arenaMalloc_trap,outer]
  · intro nmemb size
    rw [call,inScope_trap found,arenaCalloc]
    split_ifs with large
    · simp only [Except.error.injEq,reduceCtorEq,false_iff]
      omega
    · rw [arenaFill_trap,outer]
      omega
  · intro src
    rw [call,inScope_trap found,arenaStrndup]
    split_ifs with large
    · simp only [Except.error.injEq,reduceCtorEq,false_iff]
      omega
    · rw [arenaFill_trap,outer]
      omega
  · intro old n
    rw [call,inScope_trap found,arenaRealloc,arenaMalloc_trap,outer]
  · intro ptr old n there
    obtain ⟨b,member,rfl,_⟩ := there
    have aligned : b.addr % maxalign = 0 := holds.sound.aligned b member
    rw [call,inScope_trap found,← outer,← arenaMalloc_trap s scope.id n room]
    cases fast : arenaReallocFast s b.addr old n with
    | some frames => simp [arenaRealloc,aligned,fast]
    | none =>
      simp only [arenaRealloc,aligned,fast,ne_eq,not_true_eq_false,↓reduceIte,and_true]
      cases arenaMalloc s scope.id n room with
      | error e => simp
      | ok out =>
        simp only [reduceCtorEq,iff_false]
        split
        · simp
        · simp only [orFault]
          split <;> simp [Except.map]

/-! ## A program -/

/-- Memory at a place for one size. -/
def roomAt (n p : Nat) : Room := fun size => if size = n then some p else none

theorem roomAt_fresh {heap : Heap} {n p : Nat} (fresh : heap.Fresh ⟨p,n⟩) (aligned : p % maxalign = 0)
    (ends : p + n + 16 ≤ 2^64) :
    RoomFresh heap (roomAt n p) := by
  intro size q place
  unfold roomAt at place
  split at place <;> cases place
  next same => exact same ▸ ⟨fresh,aligned,ends⟩

/-- No memory. -/
def noRoom : Room := fun _ => none

theorem noRoom_fresh (heap : Heap) : RoomFresh heap noRoom := fun _ _ place => nomatch place

/-- A new arena, the same one with a scope, and then with five bytes. -/
def sampleNew : State := ⟨⟨[⟨4096,65536⟩],fun _ => 0⟩,⟨[⟨4096,65536,32⟩],65536,0,1⟩,[],false⟩

def sampleEntered : State := ⟨⟨[⟨4096,65536⟩],fun _ => 0⟩,⟨[⟨4096,65536,32⟩],65536,0,2⟩,[⟨some 4096,32,2⟩],false⟩

def sampleFive : State := ⟨⟨[⟨4096,65536⟩],fun _ => 0⟩,⟨[⟨4096,65536,40⟩],65536,0,2⟩,[⟨some 4096,32,2⟩],false⟩

/-- The frame has no place for 70000 more bytes: there is another one. -/
def sampleMore : State :=
  ⟨⟨[⟨1048576,131072⟩,⟨4096,65536⟩],fun _ => 0⟩,⟨[⟨1048576,131072,70032⟩,⟨4096,65536,40⟩],65536,0,2⟩,
    [⟨some 4096,32,2⟩],false⟩

/-- A scope in the one of the five bytes. -/
def sampleInner : State :=
  ⟨⟨[⟨4096,65536⟩],fun _ => 0⟩,⟨[⟨4096,65536,40⟩],65536,0,3⟩,[⟨some 4096,40,3⟩,⟨some 4096,32,2⟩],false⟩

def fiveBlock : Block := ⟨4128,[0,0,0,0,0],1⟩

def moreBlock : Block := ⟨1048608,read (fun _ => 0) 1048608 70000,1⟩

theorem new_ran : Ran sampleNew ⟨0,[]⟩ :=
  .start (Nat.le_refl 4096) (.inl rfl) rfl
    (roomAt_fresh (show Heap.Fresh ⟨[],fun _ => 0⟩ ⟨4096,65536⟩ from fun q member => nomatch member) rfl (by omega)) rfl

theorem entered_ran : Ran sampleEntered ⟨1,[]⟩ := .call (c := .enter) new_ran nofun trivial rfl (.enter _)

theorem five_ran : Ran sampleFive ⟨1,[fiveBlock]⟩ :=
  .call (c := .malloc 0 5 noRoom) entered_ran Nat.one_pos (noRoom_fresh _) rfl (.malloc _ 0 5 _ _)

theorem more_fresh : RoomFresh sampleFive.heap (roomAt 131072 1048576) :=
  roomAt_fresh (fun q member => by
    obtain rfl : q = ⟨4096,65536⟩ := List.mem_singleton.mp member
    intro x here there
    unfold Region.Has at here there
    simp only at here there
    omega) rfl (by omega)

theorem more_run : call sampleFive (.malloc 0 70000 (roomAt 131072 1048576)) = .ok (some 1048608,sampleMore) := by
  with_unfolding_all rfl

theorem more_ran : Ran sampleMore ⟨1,[moreBlock,fiveBlock]⟩ :=
  .call (c := .malloc 0 70000 _) five_ran Nat.one_pos more_fresh more_run (.malloc _ 0 70000 _ _)

theorem inner_ran : Ran sampleInner ⟨2,[fiveBlock]⟩ := .call (c := .enter) five_ran nofun trivial rfl (.enter _)

/-- Two blocks in two frames. -/
theorem ran_sound_five : Ran sampleMore ⟨1,[moreBlock,fiveBlock]⟩ ∧ sampleMore.arena.frames.length = 2 ∧
    Sound sampleMore ⟨1,[moreBlock,fiveBlock]⟩ ∧
    (∀ c : Call, c.Allowed ⟨1,[moreBlock,fiveBlock]⟩ sampleMore.freed → c.Fresh sampleMore.heap →
      (∃ out s', call sampleMore c = .ok (out,s') ∧ ∃ d', Takes s'.heap.bytes ⟨1,[moreBlock,fiveBlock]⟩ c out d') ∨
        ∃ e, call sampleMore c = .error e ∧ Ends sampleMore c e) ∧
    ∀ out s', sampleMore.freed = false → call sampleMore .free = .ok (out,s') → ∀ i < 1, ∀ size room,
      call s' (.malloc i size room) = .error .trap ↔ i ≠ 1 :=
  ⟨more_ran,rfl,ran_sound more_ran⟩

/-- The second frame is gone when the scope is left. -/
theorem leave_restores_five : ∃ s, sampleNew.arena.frames.length = 1 ∧ sampleMore.arena.frames.length = 2 ∧
    call sampleMore .leave = .ok (none,s) ∧ s.arena.frames = sampleNew.arena.frames ∧
      s.heap.regions = sampleNew.heap.regions ∧ s.scopes = sampleNew.scopes ∧ s.arena.refs = sampleNew.arena.refs := by
  have none_ : Nested sampleEntered ⟨1,[]⟩ sampleEntered ⟨1,[]⟩ := .here
  have first : Nested sampleEntered ⟨1,[]⟩ sampleFive ⟨1,[fiveBlock]⟩ :=
    .call (c := .malloc 0 5 noRoom) none_ Nat.one_pos (noRoom_fresh _) nofun rfl (.malloc _ 0 5 _ _) (Nat.le_refl _)
  have nested : Nested sampleEntered ⟨1,[]⟩ sampleMore ⟨1,[moreBlock,fiveBlock]⟩ :=
    .call (c := .malloc 0 70000 _) first Nat.one_pos more_fresh nofun more_run (.malloc _ 0 70000 _ _) (Nat.le_refl _)
  exact ⟨_,rfl,rfl,rfl,leave_restores new_ran rfl rfl nested rfl rfl⟩

/-- From the outer scope of two an allocation traps, and so does a block that grows and
    is moved; one that grows in its place does not. -/
theorem ran_traps_five : call sampleInner (.malloc 1 8 noRoom) = .error .trap ∧
    call sampleInner (.realloc 1 (some 4128) 5 70000 noRoom) = .error .trap ∧
    ∃ s, call sampleInner (.realloc 1 (some 4128) 5 8 noRoom) = .ok (some 4128,s) ∧
      arenaReallocFast sampleInner 4128 5 8 = some s.arena.frames := by
  obtain ⟨mallocs,_,_,_,reallocs⟩ := ran_traps inner_ran rfl (show 1 < 2 from Nat.one_lt_two) noRoom
  have known : ∃ b ∈ [fiveBlock], b.addr = 4128 ∧ 5 ≤ b.data.length :=
    ⟨fiveBlock,List.mem_singleton_self _,rfl,Nat.le_refl _⟩
  exact ⟨(mallocs 8).mpr Nat.one_pos,(reallocs 4128 5 70000 known).mpr ⟨Nat.one_pos,rfl⟩,_,rfl,rfl⟩

end

end Robsd.Arenas
