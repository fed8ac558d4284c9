import Penglai.SignTool.ElfFile

namespace Penglai.SignTool

/-! # The life cycle of a mapping

The callers run `elf_args_init`, `elf_valid` and `elf_args_destroy` on one record,
whatever happened in the first. What `close` and `munmap` take away is what Linux
documents: nothing for a negative descriptor, for an address that is not at the start
of a page, for a range that leaves user space and for the length zero, otherwise the
pages of the range. -/

def pageSize : Nat := 4096

def pageAlign (length : Nat) : Nat := (length + (pageSize - 1)) / pageSize * pageSize

structure UserSpace where
  space : AddressSpace
  taskSize : Nat
  below : ∀ location, space.mapped location = true → location.toNat < taskSize

def InPages (ptr : UInt64) (length : Nat) (location : UInt64) : Prop :=
  ptr.toNat ≤ location.toNat ∧ location.toNat < ptr.toNat + pageAlign length

def UserSpace.Unmaps (user : UserSpace) (ptr size location : UInt64) : Prop :=
  ptr.toNat % pageSize = 0 ∧ ptr.toNat + size.toNat ≤ user.taskSize ∧
  InPages ptr size.toNat location ∧ user.space.mapped location = true

def close (fd : Int) : Option Nat := if fd < 0 then none else some fd.toNat

structure MapsPages (user : UserSpace) (file : MappedFile user.space) : Prop where
  aligned : file.ptr.toNat % pageSize = 0
  inside : file.ptr.toNat + file.contents.length ≤ user.taskSize
  whole : ∀ location, InPages file.ptr file.contents.length location →
    user.space.mapped location = true

structure FileCall (user : UserSpace) where
  outcome : FileOutcome user.space
  mapsPages : ∀ fd file, outcome = .mapped fd file → MapsPages user file

def FileOutcome.opened {space : AddressSpace} : FileOutcome space → Option Nat
  | .openFails => none
  | .fstatFails fd | .empty fd | .mmapFails fd _ _ | .mapped fd _ => some fd

def FileOutcome.Maps {space : AddressSpace} (outcome : FileOutcome space) (location : UInt64) :
    Prop :=
  match outcome with
  | .mapped _ file => InPages file.ptr file.contents.length location
  | _ => False

def IsMapping {space : AddressSpace} (elfArgs : ElfArgs) (outcome : FileOutcome space) : Prop :=
  ∃ fd file, outcome = .mapped fd file ∧ elfArgs.ptr = file.ptr ∧
    elfArgs.size = UInt64.ofNat file.contents.length ∧ 0 < elfArgs.size

section LifeCycle

variable {user : UserSpace}

/-- What the callers rely on: `elf_valid` recognises a mapping, and `elf_args_destroy`
closes what was opened and unmaps what was mapped. -/
structure LifeCycle (stale : ElfArgs) (call : FileCall user) : Prop where
  valid : elfValid (elfArgsInit stale call.outcome) ↔
    IsMapping (elfArgsInit stale call.outcome) call.outcome
  closes : close (elfArgsInit stale call.outcome).fd = call.outcome.opened
  unmaps : ∀ location,
    user.Unmaps (elfArgsInit stale call.outcome).ptr (elfArgsInit stale call.outcome).size
      location ↔ call.outcome.Maps location

def UnmapsNothing (user : UserSpace) (stale : ElfArgs) : Prop :=
  ∀ location, ¬user.Unmaps stale.ptr stale.size location

/-- Old contents that do no harm in an outcome. -/
def Harmless (stale : ElfArgs) : FileOutcome user.space → Prop
  | .openFails => UnmapsNothing user stale
  | .fstatFails _ => ¬(0 < stale.size ∧ stale.ptr ≠ 0) ∧ UnmapsNothing user stale
  | .empty _ => True
  | .mmapFails _ _ _ => False
  | .mapped _ _ => True

theorem close_natCast (fd : Nat) : close (fd : Int) = some fd := by
  rw [close, if_neg (Int.not_lt.mpr (Int.natCast_nonneg fd)), Int.toNat_natCast]

theorem close_elfArgsInit {space : AddressSpace} (stale : ElfArgs) (outcome : FileOutcome space) :
    close (elfArgsInit stale outcome).fd = outcome.opened := by
  cases outcome with
  | openFails => rfl
  | _ => exact close_natCast _

theorem not_unmaps_zero (ptr location : UInt64) : ¬user.Unmaps ptr 0 location := by
  rintro ⟨-, -, ⟨above, below⟩, -⟩
  have empty : pageAlign (0 : UInt64).toNat = 0 := by decide
  rw [empty] at below
  omega

theorem MapsPages.unmaps_iff {file : MappedFile user.space} (mapsPages : MapsPages user file)
    (location : UInt64) :
    user.Unmaps file.ptr (UInt64.ofNat file.contents.length) location ↔
      InPages file.ptr file.contents.length location := by
  rw [UserSpace.Unmaps, file.size_toNat]
  constructor
  · rintro ⟨-, -, inside, -⟩
    exact inside
  · intro inside
    exact ⟨mapsPages.aligned, mapsPages.inside, inside, mapsPages.whole location inside⟩

/-- The life cycle is kept exactly where the old contents are harmless; where `mmap`
fails, they never are. -/
theorem lifeCycle_iff (stale : ElfArgs) (call : FileCall user) :
    LifeCycle stale call ↔ Harmless stale call.outcome := by
  rcases call with ⟨outcome, mapsPages⟩
  have closes := close_elfArgsInit stale outcome
  have valid := elfValid_elfArgsInit stale outcome
  have notMapping (other : ∀ fd file, outcome ≠ .mapped fd file) :
      ¬IsMapping (elfArgsInit stale outcome) outcome := by
    rintro ⟨fd, file, mapped, -⟩
    exact other fd file mapped
  cases outcome with
  | openFails =>
      constructor
      · rintro ⟨-, -, unmaps⟩ location
        exact (unmaps location).mp
      · intro nothing
        exact ⟨iff_of_false valid.mp (notMapping (by simp)), closes, fun location =>
          iff_of_false (nothing location) id⟩
  | fstatFails fd =>
      constructor
      · rintro ⟨recognised, -, unmaps⟩
        refine ⟨fun stays => ?_, fun location => (unmaps location).mp⟩
        exact notMapping (by simp) (recognised.mp (valid.mpr stays))
      · rintro ⟨refused, nothing⟩
        exact ⟨iff_of_false (fun accepted => refused (valid.mp accepted)) (notMapping (by simp)),
          closes, fun location => iff_of_false (nothing location) id⟩
  | empty fd =>
      refine iff_of_true ⟨iff_of_false valid.mp (notMapping (by simp)), closes, ?_⟩ trivial
      exact fun location => iff_of_false (not_unmaps_zero _ location) id
  | mmapFails fd size positive =>
      refine iff_of_false ?_ id
      rintro ⟨recognised, -, -⟩
      exact notMapping (by simp) (recognised.mp (valid.mpr trivial))
  | mapped fd file =>
      refine iff_of_true ⟨iff_of_true (valid.mpr trivial) ?_, closes, ?_⟩ trivial
      · exact ⟨fd, file, rfl, rfl, rfl, file.size_pos⟩
      · exact (mapsPages fd file rfl).unmaps_iff

end LifeCycle

def emptyUser : UserSpace where
  space :=
    { bytes := fun _ => 0
      mapped := fun _ => false
      topUnmapped := rfl }
  taskSize := 0
  below := by simp

theorem mmapFails_breaks_lifeCycle :
    ¬∀ (user : UserSpace) (stale : ElfArgs) (call : FileCall user), LifeCycle stale call := by
  intro cycle
  have kept := cycle emptyUser ⟨0, 0, 0⟩ ⟨.mmapFails 3 1 (by decide), by simp⟩
  have accepted : elfValid (⟨3, 1, mapFailed⟩ : ElfArgs) := by decide
  rcases kept.valid.mp accepted with ⟨fd, file, mapped, -⟩
  cases mapped

end Penglai.SignTool
