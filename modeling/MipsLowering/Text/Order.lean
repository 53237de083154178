/-!
# Sorted lists of texts

Lists of labels and registers are shown in the order of their code points.
-/

namespace MipsLowering.Text

/-! ## Sorting -/

/-- Inserts a text before the first one that is not below it. -/
def insertSorted (s : String) : List String → List String
  | [] => [s]
  | t :: ts => if s ≤ t then s :: t :: ts else t :: insertSorted s ts

/-- The texts in the order of their code points. -/
def sorted (ss : List String) : List String :=
  ss.foldr insertSorted []

/-- Insertion adds its text and keeps the others. -/
theorem insertSorted_perm (s : String) (ss : List String) :
    (insertSorted s ss).Perm (s :: ss) := by
  induction ss with
  | nil => exact .refl _
  | cons t ts ih =>
    simp only [insertSorted]
    split
    · exact .refl _
    · exact (ih.cons t).trans (.swap s t ts)

/-- Sorting neither adds nor loses a text. -/
theorem sorted_perm (ss : List String) : (sorted ss).Perm ss := by
  induction ss with
  | nil => exact .refl _
  | cons s ss ih => exact (insertSorted_perm s (sorted ss)).trans (ih.cons s)

@[simp] theorem mem_sorted {s : String} {ss : List String} : s ∈ sorted ss ↔ s ∈ ss :=
  (sorted_perm ss).mem_iff

/-- Insertion keeps the order. -/
theorem pairwise_insertSorted (s : String) {ss : List String} (h : ss.Pairwise (· ≤ ·)) :
    (insertSorted s ss).Pairwise (· ≤ ·) := by
  induction ss with
  | nil => simp [insertSorted]
  | cons t ts ih =>
    have ⟨least, rest⟩ := List.pairwise_cons.mp h
    simp only [insertSorted]
    split
    next le =>
      refine List.pairwise_cons.mpr ⟨fun u hu => ?_, h⟩
      rcases List.mem_cons.mp hu with rfl | hu
      · exact le
      · exact String.le_trans le (least u hu)
    next not_le =>
      refine List.pairwise_cons.mpr ⟨fun u hu => ?_, ih rest⟩
      rcases List.mem_cons.mp ((insertSorted_perm s ts).mem_iff.mp hu) with rfl | hu
      · exact (String.le_total u t).resolve_left not_le
      · exact least u hu

/-- No text stands behind one that is above it. -/
theorem pairwise_sorted (ss : List String) : (sorted ss).Pairwise (· ≤ ·) := by
  induction ss with
  | nil => exact .nil
  | cons s ss ih => exact pairwise_insertSorted s ih

/-! ## Lists in messages -/

/-- The texts of a list, each at its first place only. -/
def distinct (ss : List String) : List String :=
  ss.foldl (fun seen s => if seen.contains s then seen else seen ++ [s]) []

/-- The texts one after the other, with a comma and a blank between them. -/
def commaList (ss : List String) : String :=
  String.intercalate ", " ss

end MipsLowering.Text
