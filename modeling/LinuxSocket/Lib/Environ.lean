import LinuxSocket.Lib.Line

/-! # Environment variables and `snprintf` -/
namespace LinuxSocket

def EQUALS : UInt8 := 61

/-- `snprintf` into a buffer of `size` bytes, the last of which is the terminator. -/
def snprintf (size : ℕ) (text : Bytes) : Bytes := text.take (size - 1)

/-- The entry of an environment is that of the variable `name`. -/
def defines (name entry : Bytes) : Bool := (name ++ [EQUALS]).isPrefixOf entry

/-- `putenv` of `NAME=value`, which takes the place of the entry of that variable. -/
def putenv : List Bytes → Bytes → List Bytes
  | [], s => [s]
  | entry :: environ, s =>
    if defines (s.takeWhile (· != EQUALS)) entry then s :: environ else entry :: putenv environ s

def getenv (environ : List Bytes) (name : Bytes) : Option Bytes :=
  (environ.find? (defines name)).map fun entry => entry.drop (name.length + 1)

variable {name : Bytes}

theorem defines_entry (name value : Bytes) : defines name (name ++ EQUALS :: value) = true := by
  rw [defines, List.isPrefixOf_iff_prefix]
  exact ⟨value, by rw [List.append_assoc, List.singleton_append]⟩

theorem name_entry (h : EQUALS ∉ name) (value : Bytes) :
    (name ++ EQUALS :: value).takeWhile (· != EQUALS) = name := by
  have hname : ∀ c ∈ name, (c != EQUALS) = true := by
    intro c hc
    simpa using fun he : c = EQUALS => h (he ▸ hc)
  rw [List.takeWhile_append_of_pos hname]
  simp

/-- A variable has the value that was put last. -/
theorem getenv_putenv (h : EQUALS ∉ name) (environ : List Bytes) (value : Bytes) :
    getenv (putenv environ (name ++ EQUALS :: value)) name = some value := by
  have hvalue : (name ++ EQUALS :: value).drop (name.length + 1) = value := by
    rw [← List.drop_drop, List.drop_left]
    rfl
  induction environ with
  | nil => rw [putenv, getenv, List.find?_cons_of_pos (defines_entry name value), Option.map_some, hvalue]
  | cons entry environ ih =>
    rw [putenv, name_entry h]
    by_cases hentry : defines name entry = true
    · rw [if_pos hentry, getenv, List.find?_cons_of_pos (defines_entry name value), Option.map_some, hvalue]
    · rw [if_neg hentry, getenv, List.find?_cons_of_neg hentry]
      exact ih

end LinuxSocket
