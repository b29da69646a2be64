import AlphaOS.Computer

/-! The driver of the PS/2 keyboard, `keyboard/classic.c`: each scancode of a pressed key is a
character for the current process, in the case that the caps lock state asks for. -/
namespace AlphaOS.Interrupts
open Keyboard Processes

/-- `keyboard_scan_set_one`. -/
def keyboardScanSetOne : List Byte :=
  [0x00, 0x1B, 49, 50, 51, 52, 53, -- 1 to 5
    54, 55, 56, 57, 48, 45, 61, -- 6 to 0, - and =
    0x08, 9, 81, 87, 69, 82, 84, -- Q W E R T
    89, 85, 73, 79, 80, 91, 93, -- Y U I O P [ ]
    0x0D, 0x00, 65, 83, 68, 70, 71, -- A S D F G
    72, 74, 75, 76, 59, 39, 96, -- H J K L ; ' and the grave accent
    0x00, 92, 90, 88, 67, 86, 66, -- \ Z X C V B
    78, 77, 44, 46, 47, 0x00, 42, -- N M , . / *
    0x00, 0x20, 0x00, 0x00, 0x00, 0x00,
    0x00, 0x00, 0x00, 0x00, 0x00, 0x00,
    0x00, 55, 56, 57, 45, 52, 53, -- 7 8 9 - 4 5
    54, 43, 49, 50, 51, 48, 46] -- 6 + 1 2 3 0 .

def classicKeyboardScancodeToChar (capslock : CapsLockState) (scancode : Byte) : Byte :=
  if scancode.toNat ≥ keyboardScanSetOne.length then 0 else
  let c := keyboardScanSetOne.getD scancode.toNat 0
  if capslock = .off then if 65 ≤ c.toNat ∧ c.toNat ≤ 90 then c + 0x20 else c else c

/-- The other state. -/
def CapsLockState.toggle (capslock : CapsLockState) : CapsLockState :=
  if capslock = .on then .off else .on

def keyboardSetCapslock (s : Computer) (capslock : CapsLockState) : Computer :=
  { s with capslock := capslock }

/-- The second read of the port is of no use to the handler. -/
def classicKeyboardHandleInterrupt : Handler := fun env s =>
  let s := s.withKernel (kernelPage s.kernel)
  let scancode := env.scancode
  if scancode &&& 0x80 ≠ 0 then some (.frame, s) else
  let s := if scancode = 0x3A then keyboardSetCapslock s s.capslock.toggle else s
  let c := classicKeyboardScancodeToChar s.capslock scancode
  let s := if c ≠ 0 then s.withKernel (keyboardPush s.kernel c) else s
  some (.frame, s.withKernel (taskPage s.kernel))

/-- The state that a scancode leaves. -/
def scannedCapslock (capslock : CapsLockState) (scancode : Byte) : CapsLockState :=
  if scancode = 0x3A then capslock.toggle else capslock

/-- The character that a scancode sends to the current process, or 0. -/
def scannedChar (capslock : CapsLockState) (scancode : Byte) : Byte :=
  if scancode &&& 0x80 ≠ 0 then 0
  else classicKeyboardScancodeToChar (scannedCapslock capslock scancode) scancode

variable (capslock : CapsLockState) (scancode : Byte) (env : Environment) (s : Computer)

@[simp] lemma toggle_toggle : capslock.toggle.toggle = capslock := by
  cases capslock <;> rfl

lemma keyboardPush_zero (k : Kernel) : keyboardPush k 0 = k := by
  simp [keyboardPush]

lemma keyboardSetCapslock_scanned : (if scancode = 0x3A then keyboardSetCapslock s s.capslock.toggle
    else s) = keyboardSetCapslock s (scannedCapslock s.capslock scancode) := by
  unfold scannedCapslock
  split_ifs <;> rfl

/-- The handler pushes the character, if there is one, and always returns. -/
lemma classicKeyboardHandleInterrupt_eq : ∃ k,
    classicKeyboardHandleInterrupt env s = some (.frame, { s with
      kernel := k
      capslock := scannedCapslock s.capslock env.scancode }) ∧
    (k = keyboardPush (kernelPage s.kernel) (scannedChar s.capslock env.scancode) ∨
      k = taskPage (keyboardPush (kernelPage s.kernel) (scannedChar s.capslock env.scancode))) := by
  have hpush : ∀ (t : Computer) (c : Byte),
      (if c ≠ 0 then t.withKernel (keyboardPush t.kernel c) else t) =
        t.withKernel (keyboardPush t.kernel c) := by
    intro t c
    by_cases hc : c = 0
    · subst hc
      rw [keyboardPush_zero, if_neg (not_not.2 rfl)]
      rfl
    · exact if_pos hc
  by_cases hrelease : env.scancode &&& 0x80 = 0
  · refine ⟨_, ?_, .inr rfl⟩
    simp only [classicKeyboardHandleInterrupt, ne_eq, hrelease, not_true_eq_false, if_false,
      keyboardSetCapslock_scanned, scannedChar]
    rw [hpush]
    rfl
  · have hcaps : env.scancode ≠ 0x3A := by
      intro heq
      rw [heq] at hrelease
      exact hrelease rfl
    refine ⟨kernelPage s.kernel, ?_, .inl ?_⟩
    · simp only [classicKeyboardHandleInterrupt, ne_eq, hrelease, not_false_eq_true, if_true,
        scannedCapslock, hcaps, if_false]
      rfl
    · simp only [scannedChar, ne_eq, hrelease, not_false_eq_true, if_true, keyboardPush_zero]

end AlphaOS.Interrupts
