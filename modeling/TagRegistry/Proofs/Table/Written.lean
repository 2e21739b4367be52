import TagRegistry.Proofs.Table.Text

namespace TagRegistry.Table

namespace Written

-- Nothing in a plain field may be taken for its end, nor its start for a quote.
structure CanBePlain (text : String) : Prop where
  no_end  : ∀ c ∈ text.toList, c ≠ ',' ∧ c ≠ '\n' ∧ c ≠ '\r'
  no_open : text.toList.head? ≠ some '"'

structure Field where
  text   : String
  quoted : Bool
  plain  : quoted = false → CanBePlain text

def double : List Char → List Char
  | [] => []
  | c :: chars => if c = '"' then '"' :: '"' :: double chars else c :: double chars

def Field.chars (field : Field) : List Char :=
  if field.quoted then '"' :: double field.text.toList ++ ['"'] else field.text.toList

theorem Field.chars_of_quoted {field : Field} (h : field.quoted = true) :
    field.chars = '"' :: double field.text.toList ++ ['"'] :=
  if_pos h

theorem Field.chars_of_plain {field : Field} (h : field.quoted = false) :
    field.chars = field.text.toList :=
  if_neg (by simp [h])

-- A record of one plain field that is empty would be a blank line.
structure Record where
  fields     : List Field
  ending     : List Char
  fields_ne  : fields ≠ []
  not_blank  : ∀ field, fields = [field] → field.quoted = false → field.text ≠ ""
  ending_end : ∀ c ∈ ending, c = '\n' ∨ c = '\r'

def Record.chars (record : Record) : List Char :=
  [','].intercalate (record.fields.map Field.chars) ++ record.ending

def Record.texts (record : Record) : List String :=
  record.fields.map Field.text

end Written

-- The line ends may be left out after the last record only. A table that does not begin with a mark
-- must not seem to.
structure Written where
  marked   : Bool
  records  : List Written.Record
  ended    : ∀ record ∈ records.dropLast, record.ending ≠ []
  unmarked : marked = false → ∀ record ∈ records.head?, ∀ field ∈ record.fields.head?,
    field.quoted = false → field.text.toList.head? ≠ some '\uFEFF'

namespace Written

def chars (w : Written) : List Char :=
  (if w.marked then ['\uFEFF'] else []) ++ w.records.flatMap Record.chars

theorem chars_of_not_marked {w : Written} (h : w.marked = false) :
    w.chars = w.records.flatMap Record.chars := by
  rw [chars, if_neg (by simp [h]), List.nil_append]

def text (w : Written) : String :=
  String.ofList w.chars

def contents (w : Written) : List (List String) :=
  w.records.map Record.texts

def Field.quote (text : String) : Field where
  text
  quoted := true
  plain  := nofun

def Record.quote (texts : { texts : List String // texts ≠ [] }) : Record where
  fields     := texts.val.map Field.quote
  ending     := ['\n']
  fields_ne  := by simpa using texts.property
  not_blank  := by
    intro field hf hq
    have hm : field ∈ texts.val.map Field.quote := by simp [hf]
    have ⟨_, _, he⟩ := List.mem_map.mp hm
    simp [← he, Field.quote] at hq
  ending_end := by simp

-- Records of any texts can be written, since every field may be quoted.
def quote (contents : List { texts : List String // texts ≠ [] }) : Written where
  marked   := true
  records  := contents.map Record.quote
  ended    := by
    intro record hm
    have ⟨_, _, he⟩ := List.mem_map.mp (List.dropLast_subset _ hm)
    simp [← he, Record.quote]
  unmarked := nofun

theorem contents_quote (contents : List { texts : List String // texts ≠ [] }) :
    (quote contents).contents = contents.map Subtype.val := by
  simp [Written.contents, quote, Record.texts, Record.quote, Field.quote, Function.comp_def]

end Written
end TagRegistry.Table
