import Transclude.Expansion

namespace Transclude.Expansion

variable (options : Json)

@[simp]
theorem render_append (e f : List Segment) :
    render options (e ++ f) = render options e ++ render options f := by
  induction e with
  | nil => simp [render]
  | cons s e ih => simp [render, ih, String.append_assoc]

@[simp]
theorem render_pushText (e : Expansion) (s : String) :
    render options (e.pushText s) = render options e ++ s := by
  induction e, s using pushText.induct with
  | case1 s hs =>
    obtain rfl : s = "" := by simpa using hs
    rfl
  | case2 s hs => simp [pushText, hs, render, renderSegment]
  | case3 t s => simp [pushText, render, renderSegment]
  | case4 segment rest s h ih =>
    rw [pushText, render, ih, render, String.append_assoc]
    exact h

@[simp]
theorem render_push (e : Expansion) (s : Segment) :
    render options (e.push s) = render options e ++ renderSegment options s := by
  cases s with
  | text s => simp [push, renderSegment]
  | guarded c body => simp [push, render]

@[simp]
theorem render_appendExpansion (e f : Expansion) :
    render options (e.append f) = render options e ++ render options f := by
  induction f generalizing e with
  | nil => simp [append, render]
  | cons s f ih =>
    have h := ih (e.push s)
    unfold append at h ⊢
    rw [List.foldl_cons, h, render_push, render, String.append_assoc]

@[simp]
theorem render_splice (e : Expansion) (condition : Option Condition) (body : Expansion) :
    render options (e.splice condition body) =
      render options e ++ if condition.all (·.holds options) then render options body else "" := by
  cases condition with
  | none => simp [splice]
  | some c => simp [splice, render, renderSegment]

end Transclude.Expansion
