/-! # YAML in block style

Each field of a record and each item of a list has lines of its own. A record inside a
record is indented; the items of a list stand under its key. -/

namespace ScorePlayback

inductive Yaml where
  | scalar (text : String)
  | list (items : List Yaml)
  | record (fields : List (String × Yaml))

namespace Yaml

def indent (line : String) : String := "  " ++ line

/-- The lines of an item of a list, given its own lines. -/
def itemLines : List String → List String
  | [] => []
  | first :: rest => ("- " ++ first) :: rest.map indent

mutual

def lines : Yaml → List String
  | .scalar text => [text]
  | .list [] => ["[]"]
  | .list (item :: items) => listLines (item :: items)
  | .record fields => recordLines fields

def listLines : List Yaml → List String
  | [] => []
  | item :: items => itemLines item.lines ++ listLines items

def recordLines : List (String × Yaml) → List String
  | [] => []
  | (key, .scalar text) :: fields => (key ++ ": " ++ text) :: recordLines fields
  | (key, .list []) :: fields => (key ++ ": []") :: recordLines fields
  | (key, .list (item :: items)) :: fields =>
    ((key ++ ":") :: listLines (item :: items)) ++ recordLines fields
  | (key, .record inner) :: fields =>
    ((key ++ ":") :: (recordLines inner).map indent) ++ recordLines fields

end

def text (y : Yaml) : String := String.join (y.lines.map (· ++ "\n"))

end Yaml
end ScorePlayback
