import TagRegistry.Generation
import TagRegistry.Text.Line

namespace TagRegistry

-- A stretch of `text` with a remark on it.
structure Excerpt where
  name : String
  text : String
  span : Text.Span
  label : String
  deriving DecidableEq, Repr

-- A failure as it is shown, with the line of the registry that is to blame, if one is.
structure Report where
  message : String
  excerpt : Option Excerpt := none
  deriving DecidableEq, Repr

namespace Report

-- The report of an error met in the registry `text` at `path`.
def ofError (error : GenerateError) (path text : String) : Report :=
  match error.line? with
  | none | some 0 => { message := path ++ ": " ++ error.message }
  | some line => {
      message := "compiling the feature registry failed"
      excerpt := some {
        name := path
        text
        span := Text.lineSpan text line
        label := error.message } }

end Report
end TagRegistry
