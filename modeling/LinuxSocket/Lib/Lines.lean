import LinuxSocket.Lib.Line
import LinuxSocket.Lib.Source

/-! # The lines of a byte string -/
namespace LinuxSocket

/-- The line in front of the first CR LF, and the bytes behind that. -/
def nextLine (b : Bytes) : Option (Bytes × Bytes) := (crlfFrom b 0).map fun i => (b.take i, b.drop (i + 2))

def lineSource : Source Bytes Bytes where
  next := nextLine
  variant b := b.length
  decreases := by
    intro b l rest h
    obtain ⟨i, hi, he⟩ := Option.map_eq_some_iff.mp h
    cases he
    have := (crlfFrom_eq_some.mp hi).found.lt_length
    rw [List.length_drop]
    omega

def crlfLines (b : Bytes) : List Bytes := lineSource.toList b

theorem crlfLines_line {l : Bytes} (h : NoCrlf l) (rest : Bytes) :
    crlfLines (l ++ CRLF ++ rest) = l :: crlfLines rest := by
  have hbuf : l ++ CRLF ++ rest = l ++ CR :: LF :: rest := by simp [CRLF]
  have hfirst := crlfFrom_eq_some.mpr (firstCrlf_line h rest)
  have hdrop : (l ++ CR :: LF :: rest).drop (l.length + 2) = rest := by simp [List.drop_append]
  have hnext : nextLine (l ++ CR :: LF :: rest) = some (l, rest) := by
    rw [nextLine, hfirst, Option.map_some, List.take_left, hdrop]
  rw [hbuf]
  exact lineSource.toList_of_some hnext

theorem crlfLines_flatMap {ls : List Bytes} (h : ∀ l ∈ ls, NoCrlf l) (rest : Bytes) :
    crlfLines (ls.flatMap (· ++ CRLF) ++ rest) = ls ++ crlfLines rest := by
  induction ls with
  | nil => rfl
  | cons l ls ih =>
    rw [List.flatMap_cons, List.append_assoc, crlfLines_line (h l List.mem_cons_self),
      ih fun l hl => h l (List.mem_cons_of_mem _ hl)]
    rfl

end LinuxSocket
