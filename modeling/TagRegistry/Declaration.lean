import TagRegistry.Declaration.Format
import TagRegistry.Tag.Code

namespace TagRegistry
namespace Declaration

def published : String :=
  "https://w3c.github.io/IFT/Overview.html#feature-tag-list"

def guard : String :=
  "IFT_FEATURE_REGISTRY_FEATURE_REGISTRY_H_"

def tagSet : String :=
  "absl::flat_hash_set<hb_tag_t>"

def banner (source : String) : String :=
  "// Generated by feature-codegen from " ++ source

def opening (source : String) : Format → List String
  | .rust => [
    "// THIS FILE IS AUTOGENERATED.",
    "// Any changes to this file will be overwritten.",
    banner source,
    "",
    "/// Feature tags which are always included in the initial subset of an IFT font.",
    "///",
    "/// See <" ++ published ++ ">",
    "pub static DEFAULT_FEATURE_TAGS: &[Tag] = &["]
  | .cpp => [
    "// THIS FILE IS AUTOGENERATED.",
    banner source,
    "#ifndef " ++ guard,
    "#define " ++ guard,
    "",
    "#include \"hb.h\"",
    "#include \"absl/base/no_destructor.h\"",
    "#include \"absl/container/flat_hash_set.h\"",
    "",
    "namespace ift::feature_registry \x7b",
    "",
    "// See " ++ published,
    "static const " ++ tagSet ++ "& DefaultFeatureTags() \x7b",
    "  static const absl::NoDestructor<" ++ tagSet ++ "> kDefaultFeatures((" ++ tagSet ++ ") \x7b"]

def closing : Format → List String
  | .rust => ["];"]
  | .cpp => [
    "  \x7d);",
    "  return *kDefaultFeatures;",
    "\x7d",
    "",
    "\x7d  // namespace ift::feature_registry",
    "#endif  // " ++ guard]

-- A byte inside a literal that `delimiter` encloses.
def escape (delimiter : Char) (byte : UInt8) : List Char :=
  let c := Code.character byte
  if c = delimiter || c = '\\' then ['\\', c] else [c]

def byteString (code : Code) : String :=
  "b\"" ++ String.ofList (code.bytes.flatMap (escape '"')) ++ "\""

def character (byte : UInt8) : String :=
  "'" ++ String.ofList (escape '\'' byte) ++ "'"

def tagLine (code : Code) : Format → String
  | .rust => "    Tag::new(" ++ byteString code ++ "),"
  | .cpp => "    HB_TAG(" ++ ", ".intercalate (code.bytes.map character) ++ "),"

def lines (format : Format) (source : String) (codes : List Code) : List String :=
  opening source format ++ codes.map (tagLine · format) ++ closing format

end Declaration

-- The declaration of `tags`, or the first tag that has no place in one.
def render (format : Format) (source : String) (tags : List Tag) : Except Code.Error String := do
  let codes ← tags.mapM Code.ofTag
  return String.join ((Declaration.lines format source codes).map (· ++ "\n"))

end TagRegistry
