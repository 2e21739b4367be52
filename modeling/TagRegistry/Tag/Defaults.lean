import TagRegistry.Tag.Code

namespace TagRegistry.Defaults

-- The feature tags that are always kept in the initial subset of a font.
def names : List String := [
  "abvf", "abvm", "abvs", "akhn", "blwf", "blwm", "blws", "calt", "ccmp",
  "cfar", "chws", "cjct", "clig", "curs", "dist", "dnom", "fin2", "fin3",
  "fina", "frac", "half", "haln", "init", "isol", "jalt", "kern", "liga",
  "ljmo", "locl", "ltra", "ltrm", "mark", "med2", "medi", "mkmk", "mset",
  "nukt", "numr", "pref", "pres", "pstf", "psts", "rand", "rclt", "rkrf",
  "rlig", "rphf", "rtla", "rtlm", "rvrn", "ssty", "stch", "tjmo", "valt",
  "vatu", "vchw", "vert", "vjmo", "vkrn", "vpal", "vrt2", "vrtr"]

def list : List Code :=
  names.filterMap fun name => Code.ofBytes? (Text.utf8 name)

-- The listed tags once each, in ascending order.
def set : List Code :=
  (list.mergeSort Code.le).eraseDups

def contains (code : Code) : Bool :=
  list.contains code

end TagRegistry.Defaults
