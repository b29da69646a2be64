import Mathlib

/-! Machine words, the constants of `config.h` and the codes of `status.h`. -/
namespace AlphaOS

abbrev Byte := BitVec 8
abbrev Word := BitVec 32

abbrev heapSizeBytes : ℕ := 104857600
abbrev heapAddress : Word := 0x01000000

abbrev maxFiledescriptors : ℕ := 512
abbrev maxPathLength : ℕ := 108
abbrev maxProgramAllocations : ℕ := 1024
abbrev maxProcesses : ℕ := 12

abbrev programVirtualAddress : Word := 0x400000
abbrev userProgramStackSize : Word := 16384
abbrev programVirtualStackAddressStart : Word := 0x3FF000
abbrev programVirtualStackAddressEnd : Word := 0x3FB000

abbrev userDataSegment : Word := 0x23
abbrev userCodeSegment : Word := 0x1B

abbrev allOk : ℤ := 0
abbrev eio : ℤ := 1
abbrev einvarg : ℤ := 2
abbrev enomem : ℤ := 3
abbrev ebadpath : ℤ := 4
abbrev efsnotus : ℤ := 5
abbrev erdonly : ℤ := 6
abbrev eunimp : ℤ := 7
abbrev eistkn : ℤ := 8
abbrev einformat : ℤ := 9

end AlphaOS
