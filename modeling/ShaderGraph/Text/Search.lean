/-
  ShaderGraph.Text.Search — cutting a text at a character, at its start, or at a shorter
  text that occurs in it.

  `after? start` is what follows a given start (`after?_eq_some_iff`). `breakAt? needle`
  finds the first occurrence and returns what stands before and after it, so a result
  puts the text together again (`eq_of_breakAt?`). `erase` takes out every occurrence
  from the left to the right, none of them overlapping the one before; what an erasure
  joins is not searched again.
-/

namespace ShaderGraph.Text

def after? : (start : List Char) → List Char → Option (List Char)
  | [], cs => some cs
  | _ :: _, [] => none
  | s :: start, c :: cs => if s == c then after? start cs else none

theorem after?_eq_some_iff {start cs rest : List Char} :
    after? start cs = some rest ↔ cs = start ++ rest := by
  fun_induction after? start cs with
  | case1 cs => simp [eq_comm]
  | case2 => simp
  | case3 s start c cs h ih => simp_all
  | case4 s start c cs h =>
    have : ¬ c = s := fun e => h (by simp [e])
    simp [this]

def cut? (sep : Char) : List Char → Option (List Char × List Char)
  | [] => none
  | c :: cs => if c == sep then some ([], cs) else (cut? sep cs).map fun (a, b) => (c :: a, b)

/-- The text after the last character equal to `sep`. -/
def afterLast? (sep : Char) : List Char → Option (List Char)
  | [] => none
  | c :: cs => match afterLast? sep cs with
    | some rest => some rest
    | none => if c == sep then some cs else none

/-- The text before and after the first occurrence of `needle`. -/
def breakAt? (needle : List Char) : List Char → Option (List Char × List Char)
  | [] => if needle.isEmpty then some ([], []) else none
  | c :: cs => match after? needle (c :: cs) with
    | some rest => some ([], rest)
    | none => (breakAt? needle cs).map fun (a, b) => (c :: a, b)

def occursIn (needle cs : List Char) : Bool := (breakAt? needle cs).isSome

theorem eq_of_breakAt? {needle cs a b : List Char} (h : breakAt? needle cs = some (a, b)) :
    cs = a ++ needle ++ b := by
  induction cs generalizing a with
  | nil => simp [breakAt?] at h; simp [h]
  | cons c cs ih =>
    simp only [breakAt?] at h
    split at h
    · next rest hp =>
      obtain ⟨rfl, rfl⟩ : [] = a ∧ rest = b := by simpa using h
      simpa using after?_eq_some_iff.1 hp
    · obtain ⟨⟨x, y⟩, hxy, hab⟩ := Option.map_eq_some_iff.1 h
      simp only [Prod.mk.injEq] at hab
      obtain ⟨rfl, rfl⟩ := hab
      simpa using ih hxy

/-- Erasing, with `skip` characters of an occurrence still to pass over. -/
def eraseFrom (first : Char) (others : List Char) : (skip : Nat) → List Char → List Char
  | _, [] => []
  | skip + 1, _ :: cs => eraseFrom first others skip cs
  | 0, c :: cs =>
    if (after? (first :: others) (c :: cs)).isSome then eraseFrom first others others.length cs
    else c :: eraseFrom first others 0 cs

def erase (needle cs : List Char) : List Char :=
  match needle with
  | [] => cs
  | first :: others => eraseFrom first others 0 cs

end ShaderGraph.Text
