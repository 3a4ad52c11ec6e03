import CPreprocessor.Text.Basic

set_option autoImplicit false

namespace CPreprocessor.Text

@[simp] theorem byteLength_nil : byteLength [] = 0 := rfl

@[simp] theorem byteLength_cons (c : Char) (rest : Text) :
    byteLength (c :: rest) = c.utf8Size + byteLength rest := rfl

@[simp] theorem byteLength_append (first second : Text) :
    byteLength (first ++ second) = byteLength first + byteLength second := by
  induction first with
  | nil => simp
  | cons c rest ih =>
      rw [List.cons_append, byteLength_cons, byteLength_cons, ih, Nat.add_assoc]

theorem byteLength_pos (text : Text) (filled : text ≠ []) : 0 < text.byteLength := by
  cases text with
  | nil => contradiction
  | cons c rest =>
      have wide := Char.utf8Size_pos c
      rw [byteLength_cons]
      omega

@[simp] theorem dropBytes_append (first rest : Text) :
    dropBytes? first.byteLength (first ++ rest) = some rest := by
  induction first with
  | nil => cases rest <;> rfl
  | cons c first ih =>
      have wide := Char.utf8Size_pos c
      rw [byteLength_cons, List.cons_append, dropBytes?, if_neg (by omega), if_pos (by omega),
        Nat.add_sub_cancel_left, ih]

@[simp] theorem takeBytes_append (own rest : Text) :
    takeBytes? own.byteLength (own ++ rest) = some own := by
  induction own with
  | nil => cases rest <;> rfl
  | cons c own ih =>
      have wide := Char.utf8Size_pos c
      rw [byteLength_cons, List.cons_append, takeBytes?, if_neg (by omega), if_pos (by omega),
        Nat.add_sub_cancel_left, ih]
      rfl

theorem front_unique {first second more other : Text} (same : first ++ more = second ++ other)
    (length : first.byteLength = second.byteLength) : first = second := by
  have taken := takeBytes_append first more
  rw [same, length, takeBytes_append] at taken
  exact (Option.some.inj taken).symm

@[simp] theorem slice_append (before own after : Text) :
    slice? before.byteLength (before.byteLength + own.byteLength) (before ++ (own ++ after)) =
      some own := by
  rw [slice?, if_pos (Nat.le_add_right _ _), dropBytes_append, Nat.add_sub_cancel_left]
  exact takeBytes_append own after

theorem dropBytes_add (first rest : Text) (position : Nat) :
    dropBytes? (position + first.byteLength) (first ++ rest) = dropBytes? position rest := by
  induction first with
  | nil => rfl
  | cons c first ih =>
      have wide := Char.utf8Size_pos c
      rw [byteLength_cons, List.cons_append, dropBytes?, if_neg (by omega), if_pos (by omega),
        Nat.add_left_comm, Nat.add_sub_cancel_left, ih]

theorem slice_add (first rest : Text) (start stop : Nat) :
    slice? (start + first.byteLength) (stop + first.byteLength) (first ++ rest) =
      slice? start stop rest := by
  rw [slice?, slice?, dropBytes_add, Nat.add_sub_add_right]
  simp only [Nat.add_le_add_iff_right]

end CPreprocessor.Text
