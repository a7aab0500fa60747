import Scopewright.Cursor.Markup
import Scopewright.Proofs.Markup.Growth

/-! # Frames and open elements

The frames that the pieces before a cursor leave are those of the elements that are open there: each
frame has learned from the nodes that stand inside its element so far (`framesOf`,
`openAt_eq_framesOf`). -/

namespace Scopewright
namespace Cursor
namespace Markup

open Scopewright.Markup (Node Open Builder Piece opens pieces)

/-- The character data among nodes. -/
def dataAmong : List Node → Text
  | [] => []
  | .data t :: ns => t ++ dataAmong ns
  | .element .. :: ns => dataAmong ns

/-- What a frame learns when a node stands inside its element. -/
def Frame.meet (f : Frame) : Node → Frame
  | .data t => if f.name = "key" then { f with keyText := f.keyText ++ t } else f
  | .element name _ children => f.closeInner ⟨name, none, [], none, 0, dataAmong children⟩

/-- The frame of an element that is open inside `parent`. -/
def frameOf (parent : Option Frame) (o : Open) : Frame :=
  o.reversed.reverse.foldl Frame.meet ⟨o.name, segmentIn true parent o.name, [], none, 0, []⟩

/-- The frames of elements that are open, innermost first. -/
def framesOf : List Open → List Frame
  | [] => []
  | o :: os => frameOf (framesOf os).head? o :: framesOf os

section frames

variable {f : Frame}

theorem name_closeInner (closed : Frame) : (f.closeInner closed).name = f.name := by
  unfold Frame.closeInner
  split
  · split <;> rfl
  · split <;> rfl

theorem segment_closeInner (closed : Frame) : (f.closeInner closed).segment = f.segment := by
  unfold Frame.closeInner
  split
  · split <;> rfl
  · split <;> rfl

theorem name_meet (n : Node) : (f.meet n).name = f.name := by
  cases n with
  | data t =>
      rw [Frame.meet]
      split <;> rfl
  | element name span children => exact name_closeInner _

theorem segment_meet (n : Node) : (f.meet n).segment = f.segment := by
  cases n with
  | data t =>
      rw [Frame.meet]
      split <;> rfl
  | element name span children => exact segment_closeInner _

theorem foldl_meet (ns : List Node) : (ns.foldl Frame.meet f).name = f.name ∧
    (ns.foldl Frame.meet f).segment = f.segment := by
  induction ns generalizing f with
  | nil => exact ⟨rfl, rfl⟩
  | cons n ns ih =>
      obtain ⟨hname, hsegment⟩ := ih (f := f.meet n)
      exact ⟨hname.trans (name_meet n), hsegment.trans (segment_meet n)⟩

theorem name_frameOf (parent : Option Frame) (o : Open) : (frameOf parent o).name = o.name :=
  (foldl_meet _).1

theorem segment_frameOf (parent : Option Frame) (o : Open) :
    (frameOf parent o).segment = segmentIn true parent o.name := (foldl_meet _).2

/-- Only a key that ends is asked for its text. -/
theorem closeInner_congr {closed closed' : Frame} (hname : closed.name = closed'.name)
    (htext : closed.name = "key" → closed.keyText = closed'.keyText) :
    f.closeInner closed = f.closeInner closed' := by
  unfold Frame.closeInner
  rw [← hname]
  by_cases hkey : closed.name = Text.ofString "key"
  · rw [if_pos hkey, if_pos hkey, htext hkey]
  · rw [if_neg hkey, if_neg hkey]

/-- The frame of a key has learned its text. -/
theorem keyText_foldl (hkey : f.name = "key") (ns : List Node) :
    (ns.foldl Frame.meet f).keyText = f.keyText ++ dataAmong ns := by
  induction ns generalizing f with
  | nil => exact (List.append_nil _).symm
  | cons n ns ih =>
      have hname : (f.meet n).name = Text.ofString "key" := (name_meet n).trans hkey
      rw [List.foldl_cons, ih hname]
      cases n with
      | data t =>
          rw [Frame.meet, if_pos hkey, dataAmong, List.append_assoc]
      | element name span children =>
          have hdict : f.name ≠ Text.ofString "dict" := ne_of_eq_of_ne hkey (by decide)
          have harray : f.name ≠ Text.ofString "array" := ne_of_eq_of_ne hkey (by decide)
          rw [Frame.meet, Frame.closeInner, if_neg hdict, if_neg harray, dataAmong]

end frames

theorem frameOf_add (parent : Option Frame) (o : Open) (n : Node) :
    frameOf parent { o with reversed := n :: o.reversed } = (frameOf parent o).meet n := by
  rw [frameOf, frameOf, List.reverse_cons, List.foldl_append]
  rfl

theorem framesOf_add (b : Builder) (n : Node) : framesOf (b.add n).stack =
    match framesOf b.stack with
    | [] => []
    | f :: fs => f.meet n :: fs := by
  unfold Builder.add
  cases hstack : b.stack with
  | nil => rfl
  | cons o os => simp only [framesOf, frameOf_add]

theorem framesOf_close (b : Builder) (stop : ℕ) :
    framesOf (b.close stop).stack = pop true (framesOf b.stack) := by
  unfold Builder.close
  cases hstack : b.stack with
  | nil => simp only [hstack, framesOf, pop]
  | cons o os =>
      simp only [framesOf_add]
      cases os with
      | nil => rfl
      | cons o' os =>
          simp only [framesOf, pop, if_true, Frame.meet]
          congr 1
          refine closeInner_congr (name_frameOf _ o).symm fun hkey => ?_
          have hopen : (⟨o.name, segmentIn true (framesOf (o' :: os)).head? o.name, [], none, 0, []⟩ :
              Frame).name = "key" := hkey
          exact (keyText_foldl hopen _).symm

theorem framesOf_closeMany (b : Builder) (stop n : ℕ) :
    framesOf (Builder.closeMany stop n b).stack = popMany true n (framesOf b.stack) := by
  induction n generalizing b with
  | zero => rfl
  | succ n ih => rw [Builder.closeMany, ih, framesOf_close, popMany]

theorem findIdx_framesOf (os : List Open) (name : Text) :
    (framesOf os).findIdx? (fun f => decide (f.name = name)) =
      os.findIdx? fun o => decide (o.name = name) := by
  induction os with
  | nil => rfl
  | cons o os ih => rw [framesOf, List.findIdx?_cons, List.findIdx?_cons, name_frameOf, ih]

/-- A piece changes the frames as it changes the open elements. -/
theorem framesOf_read (b : Builder) (p : Piece) :
    framesOf (b.read p).stack = read true (framesOf b.stack) p := by
  unfold Builder.read read
  cases p.kind with
  | text t =>
      simp only
      rw [framesOf_add]
      rfl
  | opening name => rfl
  | empty name =>
      simp only
      rw [framesOf_add, push]
      cases framesOf b.stack with
      | nil => rfl
      | cons f fs =>
          simp only [pop, if_true, Frame.meet, dataAmong]
          congr 1
  | closing name =>
      simp only
      rw [findIdx_framesOf]
      cases b.stack.findIdx? fun o => decide (o.name = name) with
      | none => rfl
      | some k => exact framesOf_closeMany _ _ _
  | aside => rfl

/-- **Frames.**  The frames behind a text are those of the elements that are open there. -/
theorem openAt_eq_framesOf (t : Text) : openAt true t = framesOf (opens t) := by
  have hfold (ps : List Piece) (b : Builder) :
      framesOf (ps.foldl Builder.read b).stack = ps.foldl (read true) (framesOf b.stack) := by
    induction ps generalizing b with
    | nil => rfl
    | cons p ps ih => rw [List.foldl_cons, ih, framesOf_read, List.foldl_cons]
  exact (hfold (pieces t).1 .start).symm

end Markup
end Cursor
end Scopewright
