namespace Transclude.Text

def size : List Char → Nat
  | [] => 0
  | c :: cs => c.utf8Size + size cs

@[simp]
theorem size_nil : size [] = 0 := rfl

@[simp]
theorem size_cons (c : Char) (cs : List Char) : size (c :: cs) = c.utf8Size + size cs := rfl

@[simp]
theorem size_append (cs ds : List Char) : size (cs ++ ds) = size cs + size ds := by
  induction cs with
  | nil => simp
  | cons c cs ih => simp [ih, Nat.add_assoc]

/-- The parts of a text before and after a byte offset. A text cannot be parted inside a character
or beyond its end. -/
def splitAt? : Nat → List Char → Option (List Char × List Char)
  | 0, cs => some ([], cs)
  | _ + 1, [] => none
  | n + 1, c :: cs =>
    if c.utf8Size ≤ n + 1 then
      (splitAt? (n + 1 - c.utf8Size) cs).map fun (before, rest) ↦ (c :: before, rest)
    else none

/-- The piece between two byte offsets, if the text can be parted at both and they are in order. -/
def cut? (start stop : Nat) (cs : List Char) : Option (List Char) :=
  if start ≤ stop then
    (splitAt? start cs).bind fun (_, rest) ↦ (splitAt? (stop - start) rest).map (·.1)
  else none

/-- The piece between two byte offsets, and nothing where the text cannot be cut. -/
def sliceChars (start stop : Nat) (cs : List Char) : List Char := (cut? start stop cs).getD []

def sliceFrom (start : Nat) (cs : List Char) : List Char := sliceChars start (size cs) cs

def slice (start stop : Nat) (s : String) : String :=
  String.ofList (sliceChars start stop s.toList)

theorem splitAt?_append (cs ds : List Char) : splitAt? (size cs) (cs ++ ds) = some (cs, ds) := by
  induction cs with
  | nil => rw [size_nil, List.nil_append, splitAt?]
  | cons c cs ih =>
    have hsize : size (c :: cs) = size (c :: cs) - 1 + 1 := by
      have hpos := c.utf8Size_pos
      rw [size_cons]
      omega
    have hle : c.utf8Size ≤ size (c :: cs) := Nat.le_add_right _ _
    rw [List.cons_append, hsize, splitAt?, ← hsize, if_pos hle, size_cons,
      Nat.add_sub_cancel_left, ih]
    rfl

theorem eq_append_of_splitAt? {n : Nat} {cs before rest : List Char}
    (h : splitAt? n cs = some (before, rest)) : cs = before ++ rest ∧ n = size before := by
  induction cs generalizing n before with
  | nil =>
    cases n with
    | zero =>
      cases h
      exact ⟨rfl, rfl⟩
    | succ n => cases h
  | cons c cs ih =>
    cases n with
    | zero =>
      rw [splitAt?] at h
      cases h
      exact ⟨rfl, rfl⟩
    | succ n =>
      rw [splitAt?] at h
      split at h
      · next hle =>
        obtain ⟨⟨before', rest'⟩, hsplit, hpair⟩ := Option.map_eq_some_iff.1 h
        cases hpair
        obtain ⟨rfl, hsize⟩ := ih hsplit
        refine ⟨rfl, ?_⟩
        rw [size_cons]
        omega
      · cases h

theorem cut?_append (before piece rest : List Char) :
    cut? (size before) (size before + size piece) (before ++ (piece ++ rest)) = some piece := by
  rw [cut?, if_pos (Nat.le_add_right _ _), splitAt?_append, Nat.add_sub_cancel_left]
  change (splitAt? (size piece) (piece ++ rest)).map _ = _
  rw [splitAt?_append]
  rfl

theorem eq_append_of_cut? {start stop : Nat} {cs piece : List Char}
    (h : cut? start stop cs = some piece) :
    ∃ before rest, cs = before ++ (piece ++ rest) ∧ start = size before ∧
      stop = start + size piece := by
  rw [cut?] at h
  split at h
  · next hle =>
    obtain ⟨⟨before, rest⟩, hstart, h⟩ := Option.bind_eq_some_iff.1 h
    obtain ⟨⟨_, rest'⟩, hstop, rfl⟩ := Option.map_eq_some_iff.1 h
    obtain ⟨rfl, hbefore⟩ := eq_append_of_splitAt? hstart
    obtain ⟨rfl, hpiece⟩ := eq_append_of_splitAt? hstop
    refine ⟨before, rest', rfl, hbefore, ?_⟩
    dsimp only
    omega
  · cases h

theorem sliceChars_append (before piece rest : List Char) :
    sliceChars (size before) (size before + size piece) (before ++ (piece ++ rest)) = piece := by
  rw [sliceChars, cut?_append]
  rfl

theorem sliceChars_zero_append (piece rest : List Char) :
    sliceChars 0 (size piece) (piece ++ rest) = piece := by
  have h := sliceChars_append [] piece rest
  rwa [size_nil, Nat.zero_add, List.nil_append] at h

theorem sliceFrom_append (before rest : List Char) :
    sliceFrom (size before) (before ++ rest) = rest := by
  have h := sliceChars_append before rest []
  rwa [List.append_nil, ← size_append] at h

def charUnits (c : Char) : List Nat :=
  if c.toNat < 0x10000 then [c.toNat]
  else [0xD800 + (c.toNat - 0x10000) / 0x400, 0xDC00 + (c.toNat - 0x10000) % 0x400]

def units (s : String) : List Nat := s.toList.flatMap charUnits

def compareUnits : List Nat → List Nat → Ordering
  | [], [] => .eq
  | [], _ :: _ => .lt
  | _ :: _, [] => .gt
  | a :: as, b :: bs => if a < b then .lt else if b < a then .gt else compareUnits as bs

end Transclude.Text
