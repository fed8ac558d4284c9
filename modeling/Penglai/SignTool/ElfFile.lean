import Penglai.Interface

namespace Penglai.SignTool

/-! # Mapped files (`elf.c`)

What the operating system answers to `open`, `fstat` and `mmap`, and what
`elf_args_init` and `elf_valid` make of it. The record comes from `malloc` and is
not cleared. -/

def mapFailed : UInt64 := 0xFFFFFFFFFFFFFFFF

/-- The address space of a process: what lies where, and which addresses can be
read. The topmost page never can. -/
structure AddressSpace where
  bytes : Memory
  mapped : UInt64 → Bool
  topUnmapped : mapped mapFailed = false

def AddressSpace.Readable (space : AddressSpace) (address size : UInt64) : Prop :=
  ∀ offset < size.toNat, space.mapped (address + UInt64.ofNat offset) = true

instance (space : AddressSpace) (address size : UInt64) :
    Decidable (space.Readable address size) :=
  inferInstanceAs (Decidable (∀ offset < size.toNat, _))

structure MappedFile (space : AddressSpace) where
  contents : List UInt8
  ptr : UInt64
  nonempty : 0 < contents.length
  fits : contents.length < 2 ^ 64
  nonnull : ptr ≠ 0
  readable : space.Readable ptr (UInt64.ofNat contents.length)
  holds : space.bytes.read ptr contents.length = contents

inductive FileOutcome (space : AddressSpace) where
  | openFails
  | fstatFails (fd : Nat)
  | empty (fd : Nat)
  | mmapFails (fd : Nat) (size : UInt64) (positive : 0 < size)
  | mapped (fd : Nat) (file : MappedFile space)

def elfArgsInit {space : AddressSpace} (elfArgs : ElfArgs) : FileOutcome space → ElfArgs
  | .openFails => { elfArgs with fd := -1 }
  | .fstatFails fd => { elfArgs with fd }
  | .empty fd => { elfArgs with fd, size := 0 }
  | .mmapFails fd size _ => { fd, size, ptr := mapFailed }
  | .mapped fd file => { fd, size := UInt64.ofNat file.contents.length, ptr := file.ptr }

def elfValid (elfArgs : ElfArgs) : Prop :=
  elfArgs.fd ≥ 0 ∧ elfArgs.size > 0 ∧ elfArgs.ptr ≠ 0

instance (elfArgs : ElfArgs) : Decidable (elfValid elfArgs) := inferInstanceAs (Decidable (_ ∧ _))

theorem MappedFile.size_toNat {space : AddressSpace} (file : MappedFile space) :
    (UInt64.ofNat file.contents.length).toNat = file.contents.length :=
  UInt64.toNat_ofNat_of_lt' file.fits

theorem MappedFile.size_pos {space : AddressSpace} (file : MappedFile space) :
    0 < UInt64.ofNat file.contents.length := by
  rw [UInt64.lt_iff_toNat_lt, file.size_toNat]
  exact file.nonempty

/-- A record without a descriptor or for an empty file is refused; one for a file
that is mapped, or could not be mapped, is accepted; after a failed `fstat` the old
contents decide. -/
theorem elfValid_elfArgsInit {space : AddressSpace} (stale : ElfArgs)
    (outcome : FileOutcome space) :
    elfValid (elfArgsInit stale outcome) ↔ match outcome with
      | .openFails => False
      | .fstatFails _ => 0 < stale.size ∧ stale.ptr ≠ 0
      | .empty _ => False
      | .mmapFails _ _ _ => True
      | .mapped _ _ => True := by
  cases outcome with
  | openFails => simp [elfArgsInit, elfValid]
  | fstatFails fd => simp [elfArgsInit, elfValid]
  | empty fd => simp [elfArgsInit, elfValid]
  | mmapFails fd size positive =>
      have nonnull : mapFailed ≠ 0 := by decide
      simp [elfArgsInit, elfValid, positive, nonnull]
  | mapped fd file => simp [elfArgsInit, elfValid, file.size_pos, file.nonnull]

end Penglai.SignTool
