import TagRegistry.Text.Utf8

namespace TagRegistry

-- A feature tag as a registry names it: any text. Only rendering asks for four bytes.
structure Tag where
  text : String
  deriving DecidableEq, Repr, Inhabited

namespace Tag

def bytes (tag : Tag) : Bytes :=
  Text.utf8 tag.text

-- Texts are ordered by their code points, which is also the order of their bytes.
instance : LE Tag where
  le tag₁ tag₂ := tag₁.text ≤ tag₂.text

instance : LT Tag where
  lt tag₁ tag₂ := tag₁.text < tag₂.text

instance (tag₁ tag₂ : Tag) : Decidable (tag₁ ≤ tag₂) :=
  inferInstanceAs (Decidable (tag₁.text ≤ tag₂.text))

instance (tag₁ tag₂ : Tag) : Decidable (tag₁ < tag₂) :=
  inferInstanceAs (Decidable (tag₁.text < tag₂.text))

-- Ascending order, in which equal tags keep their places.
def sort (tags : List Tag) : List Tag :=
  tags.mergeSort (fun tag₁ tag₂ => tag₁ ≤ tag₂)

theorem sort_perm (tags : List Tag) : (sort tags).Perm tags :=
  List.mergeSort_perm tags _

end Tag
end TagRegistry
