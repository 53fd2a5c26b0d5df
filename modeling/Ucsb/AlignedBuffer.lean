import Mathlib.Data.List.Perm.Basic
import Ucsb.ExceptRules
import Ucsb.Operation
import Ucsb.RequestRun
import Ucsb.SortedMap

namespace Ucsb

open ExceptRules RequestRun

/-- `aligned_buffer_t`: the address of its block, and its size. -/
structure AlignedBuffer where
  buffer : Option ℕ
  size : ℕ

/-- How a buffer may misuse its pointer. -/
inductive BufferFault
  | nullPointer
  | dangling
  | outOfBounds
  | doubleFree

/-- The allocated blocks. -/
abbrev Heap := SortedMap ℕ Bytes

/-- What `aligned_alloc` returns: nothing, or the address of a block and what is in it. -/
abbrev Answer := Option (ℕ × Bytes)

namespace AlignedBuffer

/-- Construction by a size. The assertion on it is empty in the release build. -/
def make (answer : Answer) (size : ℕ) (heap : Heap) : AlignedBuffer × Heap :=
  match answer with
  | none => ({ buffer := none, size := size }, heap)
  | some (address, bytes) => ({ buffer := some address, size := size }, heap.put address bytes)

/-- With no bytes to copy the pointers do not matter. -/
def memcpy (destination source : Option ℕ) (size : ℕ) (heap : Heap) : Except BufferFault Heap :=
  if size = 0 then .ok heap
  else
    match destination, source with
    | some address, some other =>
      match heap.get address, heap.get other with
      | some old, some bytes =>
        if size ≤ old.length ∧ size ≤ bytes.length then
          .ok (heap.put address (bytes.take size ++ old.drop size))
        else .error .outOfBounds
      | _, _ => .error .dangling
    | _, _ => .error .nullPointer

/-- The copy constructor. -/
def copy (answer : Answer) (other : AlignedBuffer) (heap : Heap) :
    Except BufferFault (AlignedBuffer × Heap) := do
  let (this, heap) := make answer other.size heap
  let heap ← memcpy this.buffer other.buffer this.size heap
  .ok (this, heap)

/-- The destructor: freeing the null pointer does nothing. -/
def destroy (this : AlignedBuffer) (heap : Heap) : Except BufferFault Heap :=
  match this.buffer with
  | none => .ok heap
  | some address =>
    if heap.get address = none then .error .doubleFree else .ok (heap.erase address)

/-- The element at an index. -/
def element (this : AlignedBuffer) (idx : ℕ) (heap : Heap) : Except BufferFault UInt8 :=
  match this.buffer with
  | none => .error .nullPointer
  | some address =>
    match heap.get address with
    | none => .error .dangling
    | some bytes => if h : idx < bytes.length then .ok bytes[idx] else .error .outOfBounds

def setElement (this : AlignedBuffer) (idx : ℕ) (byte : UInt8) (heap : Heap) :
    Except BufferFault Heap :=
  match this.buffer with
  | none => .error .nullPointer
  | some address =>
    match heap.get address with
    | none => .error .dangling
    | some bytes =>
      if idx < bytes.length then .ok (heap.put address (bytes.set idx byte))
      else .error .outOfBounds

end AlignedBuffer

/-- What a program does with its buffers, which it names by their places in the order they were
made. The value that an assignment returns is made and destroyed with it. -/
inductive BufferOperation
  | default
  | sized (size : ℕ)
  | copied (j : ℕ)
  | moved (j : ℕ)
  | assignCopy (i j : ℕ)
  | assignMove (i j : ℕ)
  | destroyed (i : ℕ)
  | element (i idx : ℕ)
  | setElement (i idx : ℕ) (byte : UInt8)

/-- An operation, and what its first and second allocation return. -/
structure BufferCall where
  operation : BufferOperation
  first : Answer := none
  second : Answer := none

structure BufferProgram where
  heap : Heap
  objects : List AlignedBuffer

namespace BufferProgram

open AlignedBuffer

def object (p : BufferProgram) (i : ℕ) : AlignedBuffer :=
  p.objects.getD i { buffer := none, size := 0 }

/-- `operator=` of a buffer to copy: the return value is a copy of the assigned buffer. -/
def assignCopy (p : BufferProgram) (first second : Answer) (i j : ℕ) :
    Except BufferFault BufferProgram := do
  let this := p.object i
  let (copied, heap) ← copy first (p.object j) p.heap
  let (returned, heap) ← copy second copied heap
  let heap ← destroy this heap
  let heap ← destroy returned heap
  .ok { heap := heap, objects := p.objects.set i copied }

/-- `operator=` of a buffer to move swaps the two. -/
def assignMove (p : BufferProgram) (first : Answer) (i j : ℕ) :
    Except BufferFault BufferProgram := do
  let this := p.object i
  let other := p.object j
  let (returned, heap) ← copy first other p.heap
  let heap ← destroy returned heap
  .ok { heap := heap, objects := (p.objects.set i other).set j this }

def perform (p : BufferProgram) (call : BufferCall) :
    Except BufferFault (Option UInt8 × BufferProgram) :=
  match call.operation with
  | .default =>
    .ok (none, { p with objects := p.objects ++ [{ buffer := none, size := 0 }] })
  | .sized size =>
    let (this, heap) := make call.first size p.heap
    .ok (none, { heap := heap, objects := p.objects ++ [this] })
  | .copied j => do
    let (this, heap) ← copy call.first (p.object j) p.heap
    .ok (none, { heap := heap, objects := p.objects ++ [this] })
  | .moved j =>
    .ok (none, { p with
      objects := p.objects.set j { buffer := none, size := 0 } ++ [p.object j] })
  | .assignCopy i j => do
    let p ← p.assignCopy call.first call.second i j
    .ok (none, p)
  | .assignMove i j => do
    let p ← p.assignMove call.first i j
    .ok (none, p)
  | .destroyed i => do
    let heap ← destroy (p.object i) p.heap
    .ok (none, { heap := heap, objects := p.objects.eraseIdx i })
  | .element i idx => do
    let byte ← element (p.object i) idx p.heap
    .ok (some byte, p)
  | .setElement i idx byte => do
    let heap ← setElement (p.object i) idx byte p.heap
    .ok (none, { p with heap := heap })

/-- A program stays where it is at a fault. -/
def step (p : BufferProgram) (call : BufferCall) :
    Except BufferFault (Option UInt8) × BufferProgram :=
  match p.perform call with
  | .ok (reply, p) => (.ok reply, p)
  | .error fault => (.error fault, p)

end BufferProgram

/-- The same program on lists of bytes. -/
def valueStep (values : List Bytes) (call : BufferCall) : Option UInt8 × List Bytes :=
  let value (i : ℕ) := values.getD i []
  match call.operation with
  | .default => (none, values ++ [[]])
  | .sized _ => (none, values ++ [call.first.elim [] Prod.snd])
  | .copied j => (none, values ++ [value j])
  | .moved j => (none, values.set j [] ++ [value j])
  | .assignCopy i j => (none, values.set i (value j))
  | .assignMove i j => (none, (values.set i (value j)).set j (value i))
  | .destroyed i => (none, values.eraseIdx i)
  | .element i idx => ((value i)[idx]?, values)
  | .setElement i idx byte => (none, values.set i ((value i).set idx byte))

/-- A buffer and the bytes that it stands for. -/
abbrev Owned := AlignedBuffer × Bytes

/-- The buffer has a block of its own for its bytes, or there are none. -/
structure Owned.Holds (o : Owned) (heap : Heap) : Prop where
  size : o.1.size = o.2.length
  null : o.1.buffer = none → o.2 = []
  block : ∀ address, o.1.buffer = some address → heap.get address = some o.2

def blocks (objects : List AlignedBuffer) : List ℕ := objects.filterMap AlignedBuffer.buffer

/-- The blocks of the heap are those of the buffers, each of which has its own. -/
structure Owns (heap : Heap) (owned : List Owned) : Prop where
  holds : ∀ o ∈ owned, o.Holds heap
  apart : (blocks (owned.map Prod.fst)).Nodup
  all : ∀ address, heap.get address ≠ none → address ∈ blocks (owned.map Prod.fst)

/-- The allocator returns blocks of the size asked for that are not in use. -/
def Fresh (heap : Heap) (size : ℕ) (answer : Answer) : Prop :=
  ∀ address bytes, answer = some (address, bytes) →
    heap.get address = none ∧ bytes.length = size

/-- An allocation of some bytes does not fail. -/
def Granted (size : ℕ) (answer : Answer) : Prop := answer = none → size = 0

variable {heap heap' : Heap} {owned owned' : List Owned} {this other : AlignedBuffer}
  {bytes old new : Bytes} {answer : Answer} {size address : ℕ}

theorem memcpy_zero {destination source : Option ℕ} :
    AlignedBuffer.memcpy destination source 0 heap = .ok heap := rfl

/-- Bytes are copied over as many others. -/
theorem memcpy_block {source : ℕ} (hsize : size ≠ 0) (hold : heap.get address = some old)
    (hnew : heap.get source = some new) (hfit : old.length = size) (hall : new.length = size) :
    AlignedBuffer.memcpy (some address) (some source) size heap = .ok (heap.put address new) := by
  rw [AlignedBuffer.memcpy, if_neg hsize, hold, hnew]
  dsimp only
  rw [if_pos ⟨hfit.ge, hall.ge⟩, ← hall, List.take_length,
    List.drop_eq_nil_of_le (hfit.trans hall.symm).le, List.append_nil]

theorem copy_eq (answer : Answer) (other : AlignedBuffer) (heap : Heap) :
    AlignedBuffer.copy answer other heap =
      (AlignedBuffer.memcpy (AlignedBuffer.make answer other.size heap).1.buffer other.buffer
        (AlignedBuffer.make answer other.size heap).1.size
        (AlignedBuffer.make answer other.size heap).2).map
          ((AlignedBuffer.make answer other.size heap).1, ·) := by
  unfold AlignedBuffer.copy
  obtain ⟨this, made⟩ := AlignedBuffer.make answer other.size heap
  dsimp only
  cases AlignedBuffer.memcpy this.buffer other.buffer this.size made <;> rfl

theorem make_size : (AlignedBuffer.make answer size heap).1.size = size := by
  cases answer <;> rfl

theorem copy_empty (h : other.size = 0) :
    AlignedBuffer.copy answer other heap = .ok (AlignedBuffer.make answer other.size heap) := by
  rw [copy_eq, make_size, h, memcpy_zero]
  rfl

theorem Fresh.length (h : Fresh heap size answer) (hgranted : Granted size answer) :
    (answer.elim [] Prod.snd).length = size := by
  cases answer with
  | none => exact (hgranted rfl).symm
  | some block => exact (h block.1 block.2 rfl).2

theorem fresh_block (hnone : heap.get address = none) (hsize : bytes.length = size) :
    Fresh heap size (some (address, bytes)) := by
  intro other bytes' heq
  cases heq
  exact ⟨hnone, hsize⟩

theorem granted_block {block : ℕ × Bytes} : Granted size (some block) := nofun

theorem Owned.Holds.congr {o : Owned} (h : o.Holds heap)
    (heq : ∀ address, o.1.buffer = some address → heap'.get address = heap.get address) :
    o.Holds heap' where
  size := h.size
  null := h.null
  block := fun address ho => (heq address ho).trans (h.block address ho)

theorem Owned.Holds.exists_block {o : Owned} (h : o.Holds heap) (hne : o.2 ≠ []) :
    ∃ address, o.1.buffer = some address ∧ heap.get address = some o.2 := by
  cases hbuffer : o.1.buffer with
  | none => exact absurd (h.null hbuffer) hne
  | some address => exact ⟨address, rfl, h.block address hbuffer⟩

theorem Owned.Holds.element {o : Owned} {idx : ℕ} (h : o.Holds heap) (hidx : idx < o.2.length) :
    o.1.element idx heap = .ok o.2[idx] := by
  obtain ⟨address, hbuffer, hblock⟩ := h.exists_block (List.ne_nil_of_length_pos (by omega))
  rw [AlignedBuffer.element, hbuffer]
  simp only [hblock, dif_pos hidx]

theorem mem_blocks {objects : List AlignedBuffer} :
    address ∈ blocks objects ↔ ∃ this ∈ objects, this.buffer = some address :=
  List.mem_filterMap

theorem blocks_cons_some (h : this.buffer = some address) (objects : List AlignedBuffer) :
    blocks (this :: objects) = address :: blocks objects :=
  List.filterMap_cons_some h

theorem blocks_cons_none (h : this.buffer = none) (objects : List AlignedBuffer) :
    blocks (this :: objects) = blocks objects :=
  List.filterMap_cons_none h

namespace Owns

theorem perm (h : Owns heap owned) (hperm : owned.Perm owned') : Owns heap owned' where
  holds := fun o ho => h.holds o (hperm.mem_iff.mpr ho)
  apart := (((hperm.map Prod.fst).filterMap _).nodup_iff).mp h.apart
  all := fun address ha => ((hperm.map Prod.fst).filterMap _).subset (h.all address ha)

theorem tail_apart (h : Owns heap ((this, bytes) :: owned)) (hthis : this.buffer = some address) :
    address ∉ blocks (owned.map Prod.fst) := by
  have hnodup := h.apart
  rw [List.map_cons, blocks_cons_some hthis, List.nodup_cons] at hnodup
  exact hnodup.1

/-- A change of the block of one buffer leaves the other ones as they are. -/
theorem others (h : Owns heap ((this, bytes) :: owned)) (hthis : this.buffer = some address)
    (heq : ∀ other, other ≠ address → heap'.get other = heap.get other) :
    ∀ o ∈ owned, o.Holds heap' := by
  intro o ho
  apply (h.holds o (List.mem_cons_of_mem _ ho)).congr
  intro other hother
  apply heq
  rintro rfl
  exact h.tail_apart hthis (mem_blocks.mpr ⟨o.1, List.mem_map_of_mem ho, hother⟩)

/-- An empty buffer owns no block. -/
theorem null (h : Owns heap owned) : Owns heap (({ buffer := none, size := 0 }, []) :: owned) where
  holds := by
    rw [List.forall_mem_cons]
    exact ⟨⟨rfl, fun _ => rfl, fun _ heq => by cases heq⟩, h.holds⟩
  apart := h.apart
  all := h.all

/-- A new block belongs to its buffer. -/
theorem make (h : Owns heap owned) (hfresh : Fresh heap size answer)
    (hgranted : Granted size answer) :
    Owns (AlignedBuffer.make answer size heap).2
      (((AlignedBuffer.make answer size heap).1, answer.elim [] Prod.snd) :: owned) := by
  cases answer with
  | none =>
    obtain rfl : size = 0 := hgranted rfl
    exact h.null
  | some block =>
    obtain ⟨address, bytes⟩ := block
    obtain ⟨hnone, hlength⟩ := hfresh address bytes rfl
    have hne : ∀ other, heap.get other ≠ none → other ≠ address := by
      rintro other hother rfl
      exact hother hnone
    refine ⟨?_, ?_, ?_⟩
    · rw [List.forall_mem_cons]
      refine ⟨⟨hlength.symm, fun heq => (by cases heq), ?_⟩, ?_⟩
      · intro other hother
        cases Option.some.inj hother
        exact SortedMap.get_put_self
      · intro o ho
        apply (h.holds o ho).congr
        intro other hother
        change (heap.put address bytes).get other = _
        rw [SortedMap.get_put, if_neg]
        apply hne
        rw [(h.holds o ho).block other hother]
        simp
    · rw [List.map_cons, blocks_cons_some rfl, List.nodup_cons]
      refine ⟨fun hmem => ?_, h.apart⟩
      obtain ⟨this, hthis, hbuffer⟩ := mem_blocks.mp hmem
      obtain ⟨o, ho, rfl⟩ := List.mem_map.mp hthis
      rw [(h.holds o ho).block address hbuffer] at hnone
      cases hnone
    · intro other hother
      rw [List.map_cons, blocks_cons_some rfl, List.mem_cons]
      change (heap.put address bytes).get other ≠ none at hother
      rw [SortedMap.get_put] at hother
      split at hother
      next heq => exact .inl heq
      next => exact .inr (h.all other hother)

/-- New bytes in the block of a buffer. -/
theorem update (h : Owns heap ((this, old) :: owned)) (hthis : this.buffer = some address)
    (hlength : new.length = old.length) : Owns (heap.put address new) ((this, new) :: owned) where
  holds := by
    rw [List.forall_mem_cons]
    have hold := h.holds _ List.mem_cons_self
    refine ⟨⟨hold.size.trans hlength.symm, fun heq => ?_, fun other hother => ?_⟩, ?_⟩
    · rw [hthis] at heq
      cases heq
    · cases Option.some.inj (hthis.symm.trans hother)
      exact SortedMap.get_put_self
    · apply h.others hthis
      intro other hne
      rw [SortedMap.get_put, if_neg hne]
  apart := h.apart
  all := by
    intro other hother
    rw [SortedMap.get_put] at hother
    split at hother
    next heq => exact mem_blocks.mpr ⟨this, List.mem_cons_self, heq ▸ hthis⟩
    next => exact h.all other hother

theorem setElement {o : Owned} {idx : ℕ} (h : Owns heap (o :: owned)) (hidx : idx < o.2.length)
    (byte : UInt8) : ∃ heap', o.1.setElement idx byte heap = .ok heap' ∧
      Owns heap' ((o.1, o.2.set idx byte) :: owned) := by
  obtain ⟨address, hbuffer, hblock⟩ :=
    (h.holds o List.mem_cons_self).exists_block (List.ne_nil_of_length_pos (by omega))
  refine ⟨heap.put address (o.2.set idx byte), ?_, h.update hbuffer List.length_set⟩
  rw [AlignedBuffer.setElement, hbuffer]
  simp only [hblock, if_pos hidx]

/-- The block of a buffer is freed once, and no other one with it. -/
theorem destroy {o : Owned} (h : Owns heap (o :: owned)) :
    ∃ heap', o.1.destroy heap = .ok heap' ∧ Owns heap' owned := by
  obtain ⟨this, bytes⟩ := o
  rw [AlignedBuffer.destroy]
  cases hthis : this.buffer with
  | none =>
    refine ⟨heap, rfl, fun o ho => h.holds o (List.mem_cons_of_mem _ ho), ?_, ?_⟩
    · have hnodup := h.apart
      rwa [List.map_cons, blocks_cons_none hthis] at hnodup
    · intro address ha
      have hmem := h.all address ha
      rwa [List.map_cons, blocks_cons_none hthis] at hmem
  | some address =>
    have hblock := (h.holds _ List.mem_cons_self).block address hthis
    dsimp only
    rw [if_neg (by rw [hblock]; simp)]
    refine ⟨_, rfl, ?_, ?_, ?_⟩
    · apply h.others hthis
      intro other hne
      rw [SortedMap.get_erase, if_neg hne]
    · have hnodup := h.apart
      rw [List.map_cons, blocks_cons_some hthis, List.nodup_cons] at hnodup
      exact hnodup.2
    · intro other hother
      rw [SortedMap.get_erase] at hother
      split at hother
      next => exact absurd rfl hother
      next hne =>
        have hmem := h.all other hother
        rw [List.map_cons, blocks_cons_some hthis, List.mem_cons] at hmem
        exact hmem.resolve_left hne

/-- A copy has a new block with the bytes of the other one. -/
theorem copy {o : Owned} (h : Owns heap owned) (hmem : o ∈ owned)
    (hfresh : Fresh heap o.1.size answer) (hgranted : Granted o.1.size answer) :
    ∃ this heap', AlignedBuffer.copy answer o.1 heap = .ok (this, heap') ∧
      Owns heap' ((this, o.2) :: owned) ∧
      this.size = o.1.size ∧ ∀ address,
        (AlignedBuffer.make answer o.1.size heap).2.get address = none →
          heap'.get address = none := by
  obtain ⟨other, bytes⟩ := o
  have hother := h.holds _ hmem
  have hmake := h.make hfresh hgranted
  by_cases hsize : other.size = 0
  · have hbytes : bytes = [] := List.length_eq_zero_iff.mp (hother.size.symm.trans hsize)
    have hnew : answer.elim [] Prod.snd = [] :=
      List.length_eq_zero_iff.mp ((hfresh.length hgranted).trans hsize)
    rw [hnew] at hmake
    subst hbytes
    exact ⟨_, _, copy_empty hsize, hmake, make_size, fun _ hnone => hnone⟩
  · cases answer with
    | none => exact absurd (hgranted rfl) hsize
    | some block =>
      obtain ⟨address, garbage⟩ := block
      obtain ⟨hnone, hlength⟩ := hfresh address garbage rfl
      have hne : bytes ≠ [] := by
        rintro rfl
        exact hsize hother.size
      obtain ⟨source, hsource, hblock⟩ :=
        (hmake.holds _ (List.mem_cons_of_mem _ hmem)).exists_block hne
      have hnew : Owns ((heap.put address garbage).put address bytes)
          (((AlignedBuffer.make (some (address, garbage)) other.size heap).1, bytes) :: owned) :=
        hmake.update rfl (hother.size.symm.trans hlength.symm)
      refine ⟨_, _, ?_, hnew, rfl, ?_⟩
      · rw [copy_eq, hsource]
        change (AlignedBuffer.memcpy (some address) (some source) other.size
          (heap.put address garbage)).map _ = _
        rw [memcpy_block hsize SortedMap.get_put_self hblock hlength hother.size.symm]
        rfl
      · intro unused hunused
        change (heap.put address garbage).get unused = none at hunused
        rw [SortedMap.get_put] at hunused
        split at hunused
        next => cases hunused
        next hne =>
          rw [SortedMap.get_put, if_neg hne, SortedMap.get_put, if_neg hne, hunused]

end Owns

/-- A failed allocation of some bytes ends a copy. -/
theorem copy_refused (h : ¬Granted other.size answer) :
    AlignedBuffer.copy answer other heap = .error .nullPointer := by
  obtain ⟨hnone, hpos⟩ := Classical.not_imp.mp h
  subst hnone
  rw [copy_eq]
  change (AlignedBuffer.memcpy none other.buffer other.size heap).map _ = _
  unfold AlignedBuffer.memcpy
  rw [if_neg hpos]
  rfl

theorem perm_set {i : ℕ} (hi : i < owned.length) (o : Owned) :
    (owned.set i o).Perm (o :: owned.eraseIdx i) := by
  have hset : i < (owned.set i o).length := by rwa [List.length_set]
  have hperm := List.getElem_cons_eraseIdx_perm hset
  rw [List.getElem_set_self, List.eraseIdx_set_eq] at hperm
  exact hperm.symm

namespace BufferProgram

/-- The program's buffers stand for these values, and nothing else is allocated. -/
def Represents (p : BufferProgram) (values : List Bytes) : Prop :=
  ∃ owned : List Owned, owned.map Prod.fst = p.objects ∧ owned.map Prod.snd = values ∧
    Owns p.heap owned

/-- The bytes that an operation allocates at a time. -/
def allocated (p : BufferProgram) : BufferOperation → ℕ
  | .sized size => size
  | .copied j | .assignCopy _ j | .assignMove _ j => (p.object j).size
  | _ => 0

/-- The buffers are there, an element is inside, and the allocator returns unused blocks. -/
def InScope (p : BufferProgram) (call : BufferCall) : Prop :=
  match call.operation with
  | .default => True
  | .sized size => Fresh p.heap size call.first
  | .copied j => j < p.objects.length ∧ Fresh p.heap (p.object j).size call.first
  | .moved j => j < p.objects.length
  | .assignCopy i j => (i < p.objects.length ∧ j < p.objects.length) ∧
      Fresh p.heap (p.object j).size call.first ∧
      Fresh (AlignedBuffer.make call.first (p.object j).size p.heap).2 (p.object j).size
        call.second
  | .assignMove i j => (i < p.objects.length ∧ j < p.objects.length) ∧
      Fresh p.heap (p.object j).size call.first
  | .destroyed i => i < p.objects.length
  | .element i idx | .setElement i idx _ => i < p.objects.length ∧ idx < (p.object i).size

/-- No allocation of some bytes fails. -/
def Allocates (p : BufferProgram) (call : BufferCall) : Prop :=
  match call.operation with
  | .sized _ | .copied _ | .assignMove _ _ => Granted (p.allocated call.operation) call.first
  | .assignCopy _ _ => Granted (p.allocated call.operation) call.first ∧
      Granted (p.allocated call.operation) call.second
  | _ => True

def ofOwned (heap : Heap) (owned : List Owned) : BufferProgram where
  heap := heap
  objects := owned.map Prod.fst

/-- The program goes on as the one on values does. -/
def Follows (heap : Heap) (owned : List Owned) (call : BufferCall) : Prop :=
  ((ofOwned heap owned).step call).1 = .ok (valueStep (owned.map Prod.snd) call).1 ∧
    ((ofOwned heap owned).step call).2.Represents (valueStep (owned.map Prod.snd) call).2

variable {call : BufferCall} {i j idx : ℕ} {first second : Answer} {byte : UInt8}

theorem object_eq (hi : i < owned.length) : (ofOwned heap owned).object i = owned[i].1 := by
  change (owned.map Prod.fst).getD i _ = _
  rw [List.getD_eq_getElem?_getD, List.getElem?_map, List.getElem?_eq_getElem hi]
  rfl

theorem value_eq (hi : i < owned.length) : (owned.map Prod.snd).getD i [] = owned[i].2 := by
  rw [List.getD_eq_getElem?_getD, List.getElem?_map, List.getElem?_eq_getElem hi]
  rfl

@[simp] theorem ofOwned_heap : (ofOwned heap owned).heap = heap := rfl

@[simp] theorem ofOwned_objects : (ofOwned heap owned).objects = owned.map Prod.fst := rfl

theorem follows_ok (howns : Owns heap' owned')
    (h : (ofOwned heap owned).perform call =
      .ok ((valueStep (owned.map Prod.snd) call).1,
        { heap := heap', objects := owned'.map Prod.fst }))
    (hvalues : owned'.map Prod.snd = (valueStep (owned.map Prod.snd) call).2) :
    Follows heap owned call := by
  rw [Follows, step, h]
  exact ⟨rfl, owned', rfl, hvalues, howns⟩

/-- A copy through the null pointer ends the program. -/
theorem follows_refused (h : (ofOwned heap owned).perform call = .error .nullPointer) :
    ¬Follows heap owned call := by
  rintro ⟨hreply, -⟩
  rw [step, h] at hreply
  cases hreply

theorem follows_default (h : Owns heap owned) : Follows heap owned ⟨.default, first, second⟩ := by
  apply follows_ok (h.null.perm (List.perm_append_singleton _ owned).symm)
  · simp only [perform, valueStep, ofOwned_heap, ofOwned_objects, List.map_append, List.map_cons,
      List.map_nil]
  · simp only [valueStep, List.map_append, List.map_cons, List.map_nil]

theorem follows_sized_iff (h : Owns heap owned) (hfresh : Fresh heap size first) :
    Follows heap owned ⟨.sized size, first, second⟩ ↔ Granted size first := by
  constructor
  · rintro ⟨-, owned', hobjects, hvalues, howns⟩ rfl
    let last : Owned := ({ buffer := none, size := size }, [])
    have hsplit :
        owned' = (owned.map Prod.fst ++ [last.1]).zip (owned.map Prod.snd ++ [last.2]) := by
      rw [← List.zip_unzip owned', List.unzip_eq_map]
      exact congrArg₂ List.zip hobjects hvalues
    rw [List.zip_append (by simp)] at hsplit
    have hlast : last ∈ owned' := by
      rw [hsplit]
      exact List.mem_append_right _ (List.mem_singleton_self _)
    exact (howns.holds _ hlast).size
  · intro hgranted
    apply follows_ok ((h.make hfresh hgranted).perm (List.perm_append_singleton _ owned).symm)
    · simp only [perform, valueStep, ofOwned_heap, ofOwned_objects, List.map_append,
        List.map_cons, List.map_nil]
    · simp only [valueStep, List.map_append, List.map_cons, List.map_nil]

theorem follows_copied_iff (h : Owns heap owned) (hj : j < owned.length)
    (hfresh : Fresh heap owned[j].1.size first) :
    Follows heap owned ⟨.copied j, first, second⟩ ↔ Granted owned[j].1.size first := by
  constructor
  · intro hfollows
    by_contra hrefused
    apply follows_refused _ hfollows
    simp only [perform, object_eq hj, ofOwned_heap, copy_refused hrefused]
    rfl
  · intro hgranted
    have hmem : owned[j] ∈ owned := List.getElem_mem hj
    obtain ⟨this, heap', hcopy, howns, -, -⟩ := h.copy hmem hfresh hgranted
    apply follows_ok (howns.perm (List.perm_append_singleton _ owned).symm)
    · simp only [perform, object_eq hj, ofOwned_heap, hcopy, ok_bind, valueStep, ofOwned_objects,
        List.map_append, List.map_cons, List.map_nil]
    · simp only [valueStep, value_eq hj, List.map_append, List.map_cons, List.map_nil]

theorem follows_moved (h : Owns heap owned) (hj : j < owned.length) :
    Follows heap owned ⟨.moved j, first, second⟩ := by
  let null : Owned := ({ buffer := none, size := 0 }, [])
  have hsource : Owns heap (owned[j] :: owned.eraseIdx j) :=
    h.perm (List.getElem_cons_eraseIdx_perm hj).symm
  have hperm : (null :: owned[j] :: owned.eraseIdx j).Perm (owned.set j null ++ [owned[j]]) :=
    (List.Perm.swap _ _ _).trans
      (((perm_set hj null).symm.cons _).trans (List.perm_append_singleton _ _).symm)
  apply follows_ok (hsource.null.perm hperm)
  · simp only [perform, object_eq hj, valueStep, ofOwned_heap, ofOwned_objects, List.map_append,
      List.map_set, List.map_cons, List.map_nil, null]
  · simp only [valueStep, value_eq hj, List.map_append, List.map_set, List.map_cons, List.map_nil,
      null]

theorem follows_destroyed (h : Owns heap owned) (hi : i < owned.length) :
    Follows heap owned ⟨.destroyed i, first, second⟩ := by
  obtain ⟨heap', hdestroy, howns⟩ := (h.perm (List.getElem_cons_eraseIdx_perm hi).symm).destroy
  apply follows_ok howns
  · simp only [perform, object_eq hi, ofOwned_heap, hdestroy, ok_bind, valueStep, ofOwned_objects,
      List.eraseIdx_map]
  · simp only [valueStep, List.eraseIdx_map]

/-- An assignment frees the old block of the buffer and that of the value it returns. -/
theorem follows_assignCopy_iff (h : Owns heap owned) (hi : i < owned.length)
    (hj : j < owned.length) (hfirst : Fresh heap owned[j].1.size first)
    (hsecond : Fresh (AlignedBuffer.make first owned[j].1.size heap).2 owned[j].1.size second) :
    Follows heap owned ⟨.assignCopy i j, first, second⟩ ↔
      Granted owned[j].1.size first ∧ Granted owned[j].1.size second := by
  have hmem : owned[j] ∈ owned := List.getElem_mem hj
  by_cases hgranted : Granted owned[j].1.size first
  · obtain ⟨copied, made, hcopy, hmade, hsize, hunused⟩ := h.copy hmem hfirst hgranted
    rw [and_iff_right hgranted]
    constructor
    · intro hfollows
      by_contra hrefused
      apply follows_refused _ hfollows
      simp only [perform, assignCopy, object_eq hi, object_eq hj, ofOwned_heap, hcopy, ok_bind,
        copy_refused (hsize.symm ▸ hrefused)]
      rfl
    · intro hgranted'
      have hfresh : Fresh made copied.size second := by
        intro address bytes heq
        obtain ⟨hnone, hlength⟩ := hsecond address bytes heq
        exact ⟨hunused address hnone, hlength.trans hsize.symm⟩
      obtain ⟨returned, both, hcopy', hboth, -, -⟩ :=
        hmade.copy List.mem_cons_self hfresh (hsize.symm ▸ hgranted')
      let added : List Owned := [(returned, owned[j].2), (copied, owned[j].2)]
      have hfront : (added ++ owned).Perm (owned[i] :: (added ++ owned.eraseIdx i)) :=
        ((List.getElem_cons_eraseIdx_perm hi).symm.append_left added).trans List.perm_middle
      obtain ⟨freed, hfreed, howns⟩ := (hboth.perm hfront).destroy
      obtain ⟨left, hleft, howns⟩ := howns.destroy
      apply follows_ok (howns.perm (perm_set hi _).symm)
      · simp only [perform, assignCopy, object_eq hi, object_eq hj, ofOwned_heap, ofOwned_objects,
          hcopy, hcopy', hfreed, hleft, ok_bind, valueStep, List.map_set]
      · simp only [valueStep, value_eq hj, List.map_set]
  · refine iff_of_false ?_ (fun hboth => hgranted hboth.1)
    apply follows_refused
    simp only [perform, assignCopy, object_eq hi, object_eq hj, ofOwned_heap,
      copy_refused hgranted]
    rfl

/-- The two buffers of a move swap their blocks; its value is a copy all the same. -/
theorem follows_assignMove_iff (h : Owns heap owned) (hi : i < owned.length)
    (hj : j < owned.length) (hfresh : Fresh heap owned[j].1.size first) :
    Follows heap owned ⟨.assignMove i j, first, second⟩ ↔ Granted owned[j].1.size first := by
  have hmem : owned[j] ∈ owned := List.getElem_mem hj
  constructor
  · intro hfollows
    by_contra hrefused
    apply follows_refused _ hfollows
    simp only [perform, assignMove, object_eq hi, object_eq hj, ofOwned_heap,
      copy_refused hrefused]
    rfl
  · intro hgranted
    obtain ⟨returned, made, hcopy, hmade, -, -⟩ := h.copy hmem hfresh hgranted
    obtain ⟨left, hleft, howns⟩ := hmade.destroy
    apply follows_ok (howns.perm (List.set_set_perm hi hj).symm)
    · simp only [perform, assignMove, object_eq hi, object_eq hj, ofOwned_heap, ofOwned_objects,
        hcopy, hleft, ok_bind, valueStep, List.map_set]
    · simp only [valueStep, value_eq hi, value_eq hj, List.map_set]

theorem follows_element (h : Owns heap owned) (hi : i < owned.length)
    (hidx : idx < owned[i].1.size) :
    Follows heap owned ⟨.element i idx, first, second⟩ := by
  have hholds : owned[i].Holds heap := h.holds _ (List.getElem_mem hi)
  have hbytes : idx < owned[i].2.length := hholds.size ▸ hidx
  apply follows_ok h
  · simp only [perform, object_eq hi, ofOwned_heap, hholds.element hbytes, ok_bind, valueStep,
      value_eq hi, List.getElem?_eq_getElem hbytes]
    rfl
  · rfl

theorem follows_setElement (h : Owns heap owned) (hi : i < owned.length)
    (hidx : idx < owned[i].1.size) :
    Follows heap owned ⟨.setElement i idx byte, first, second⟩ := by
  have hholds : owned[i].Holds heap := h.holds _ (List.getElem_mem hi)
  obtain ⟨heap', hset, howns⟩ :=
    (h.perm (List.getElem_cons_eraseIdx_perm hi).symm).setElement (hholds.size ▸ hidx) byte
  have hobjects : (owned.set i (owned[i].1, owned[i].2.set idx byte)).map Prod.fst =
      owned.map Prod.fst := by
    have hi' : i < (owned.map Prod.fst).length := by rwa [List.length_map]
    have hself : owned[i].1 = (owned.map Prod.fst)[i] := (List.getElem_map _).symm
    rw [List.map_set]
    dsimp only
    rw [hself, List.set_getElem_self]
  apply follows_ok (howns.perm (perm_set hi _).symm)
  · simp only [perform, object_eq hi, ofOwned_heap, ofOwned_objects, hset, ok_bind, valueStep,
      hobjects]
  · simp only [valueStep, value_eq hi, List.map_set]

theorem ofOwned_length : (ofOwned heap owned).objects.length = owned.length :=
  List.length_map _

/-- A call goes on as on values exactly when its allocations do not fail. -/
theorem follows_iff (h : Owns heap owned) (hscope : (ofOwned heap owned).InScope call) :
    Follows heap owned call ↔ (ofOwned heap owned).Allocates call := by
  obtain ⟨operation, first, second⟩ := call
  cases operation with
  | default => exact iff_of_true (follows_default h) trivial
  | sized size => exact follows_sized_iff h hscope
  | copied j =>
    obtain ⟨hj, hfresh⟩ := hscope
    rw [ofOwned_length] at hj
    rw [object_eq hj] at hfresh
    simp only [Allocates, allocated, object_eq hj]
    exact follows_copied_iff h hj hfresh
  | moved j =>
    have hj : j < owned.length := ofOwned_length ▸ hscope
    exact iff_of_true (follows_moved h hj) trivial
  | assignCopy i j =>
    obtain ⟨⟨hi, hj⟩, hfirst, hsecond⟩ := hscope
    rw [ofOwned_length] at hi hj
    rw [object_eq hj] at hfirst hsecond
    simp only [Allocates, allocated, object_eq hj]
    exact follows_assignCopy_iff h hi hj hfirst hsecond
  | assignMove i j =>
    obtain ⟨⟨hi, hj⟩, hfresh⟩ := hscope
    rw [ofOwned_length] at hi hj
    rw [object_eq hj] at hfresh
    simp only [Allocates, allocated, object_eq hj]
    exact follows_assignMove_iff h hi hj hfresh
  | destroyed i =>
    have hi : i < owned.length := ofOwned_length ▸ hscope
    exact iff_of_true (follows_destroyed h hi) trivial
  | element i idx =>
    obtain ⟨hi, hidx⟩ := hscope
    rw [ofOwned_length] at hi
    rw [object_eq hi] at hidx
    exact iff_of_true (follows_element h hi hidx) trivial
  | setElement i idx byte =>
    obtain ⟨hi, hidx⟩ := hscope
    rw [ofOwned_length] at hi
    rw [object_eq hi] at hidx
    exact iff_of_true (follows_setElement h hi hidx) trivial

end BufferProgram

/-- Every run of a program on its buffers goes as one on lists of bytes, with a block of its own
for each buffer, none freed twice and none left behind, if and only if no allocation of some
bytes fails. -/
theorem buffers_owned_iff {p : BufferProgram} {values : List Bytes} {calls : List BufferCall}
    (h : p.Represents values)
    (hscope : Throughout BufferProgram.step BufferProgram.InScope p calls) :
    Agree BufferProgram.step valueStep (fun reply byte => reply = .ok byte)
        BufferProgram.Represents p values calls ↔
      Throughout BufferProgram.step BufferProgram.Allocates p calls := by
  refine agree_iff_within ?_ h hscope
  rintro ⟨heap, objects⟩ values call ⟨owned, rfl, rfl, howns⟩ hscope
  exact BufferProgram.follows_iff howns hscope

/-- The values buffer of a worker: made empty, and assigned a new buffer of the size needed. -/
theorem buffers_owned_worker :
    let calls : List BufferCall :=
      [⟨.default, none, none⟩, ⟨.sized 2, some (0, [1, 2]), none⟩,
        ⟨.assignMove 0 1, some (1, [3, 4]), none⟩, ⟨.destroyed 1, none, none⟩,
        ⟨.setElement 0 1 7, none, none⟩, ⟨.element 0 1, none, none⟩]
    Agree BufferProgram.step valueStep (fun reply byte => reply = .ok byte)
      BufferProgram.Represents { heap := ∅, objects := [] } [] calls := by
  intro calls
  have hempty : BufferProgram.Represents { heap := ∅, objects := [] } [] :=
    ⟨[], rfl, rfl, ⟨nofun, List.nodup_nil, fun _ h => absurd rfl h⟩⟩
  refine (buffers_owned_iff hempty ?_).mpr ?_
  · have hfresh : (∅ : Heap).get 0 = none := rfl
    refine ⟨trivial, fresh_block hfresh rfl, ⟨by decide, fresh_block ?_ rfl⟩, ?_,
      ⟨by decide, by decide⟩, ⟨by decide, by decide⟩, trivial⟩
    · decide
    · change 1 < _
      decide
  · exact ⟨trivial, granted_block, granted_block, trivial, trivial, trivial, trivial⟩

end Ucsb
