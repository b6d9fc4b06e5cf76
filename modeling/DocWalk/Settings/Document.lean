import DocWalk.Settings.Basic
import DocWalk.Toml.Reader
import DocWalk.Toml.Writer

/-!
# Settings as TOML

Settings are kept in a TOML document with a table for each part. What the
document leaves out has its default, and what it has besides is ignored.

## Implementation notes

A part can also be an array of its fields in order, or a moment, which has
none of them. The directory of the log may begin with a tilde, which stands
for the home directory; it is replaced when the settings are loaded and is not
restored when they are saved.
-/

namespace DocWalk

inductive SettingsError where
  /-- There is no document. -/
  | missing
  /-- The document is no TOML, or a setting in it has the wrong type. -/
  | malformed
  /-- The home directory is needed and not known. -/
  | noHome
deriving DecidableEq, Repr

namespace Toml

/-- The fields of a part, in the order of their names. A table is read through, so what it has
besides must be readable; an array is read only as far as there are fields. -/
def fields? (names : List String) : Toml → Option (List (Option Toml))
  | table entries =>
      if entries.all fun e => names.contains e.1 || e.2.isReadable then
        some (names.map fun name => entries.lookup name)
      else none
  | array items => some ((List.range names.length).map fun i => items[i]?)
  | moment _ => some (names.map fun _ => none)
  | _ => none

/-- A setting that may be left out. -/
def setting? {α : Type} (read : Toml → Option α) (default : α) : Option Toml → Option α
  | none => some default
  | some v => read v

def text? : Toml → Option String
  | text s => some s
  | _ => none

/-- A 64-bit count. -/
def count? : Toml → Option Nat
  | integer n => if 0 ≤ n && n < (Nat.pow 2 64 : Int) then some n.toNat else none
  | _ => none

def texts? : Toml → Option (List String)
  | array items => items.mapM text?
  | _ => none

end Toml

def LogSettings.ofToml? (v : Toml) : Option LogSettings := do
  let d : LogSettings := {}
  match ← v.fields? ["level", "dir", "file", "max_file_size", "max_files"] with
  | [level, dir, file, maxFileSize, maxFiles] =>
      return {
        level := ← Toml.setting? Toml.text? d.level level
        dir := ← Toml.setting? Toml.text? d.dir dir
        file := ← Toml.setting? Toml.text? d.file file
        maxFileSize := ← Toml.setting? Toml.count? d.maxFileSize maxFileSize
        maxFiles := ← Toml.setting? Toml.count? d.maxFiles maxFiles }
  | _ => none

def CompilerSettings.ofToml? (v : Toml) : Option CompilerSettings := do
  let d : CompilerSettings := {}
  match ← v.fields? ["edge_field", "reverse_edge_field", "flat_properties", "collection_name"] with
  | [edgeField, reverseEdgeField, flatProperties, collection] =>
      return {
        edgeField := ← Toml.setting? Toml.text? d.edgeField edgeField
        reverseEdgeField := ← Toml.setting? Toml.text? d.reverseEdgeField reverseEdgeField
        flatProperties := ← Toml.setting? Toml.texts? d.flatProperties flatProperties
        collection := ← Toml.setting? (fun v => v.text?.map some) d.collection collection }
  | _ => none

def PartitionSettings.ofToml? (v : Toml) : Option PartitionSettings := do
  let d : PartitionSettings := {}
  match ← v.fields? ["key", "parallelism", "worker_index_env"] with
  | [key, parallelism, workerIndexVariable] =>
      return {
        key := ← Toml.setting? Toml.text? d.key key
        parallelism := ← Toml.setting? Toml.count? d.parallelism parallelism
        workerIndexVariable :=
          ← Toml.setting? Toml.text? d.workerIndexVariable workerIndexVariable }
  | _ => none

namespace Settings

def ofToml? (v : Toml) : Option Settings := do
  match ← v.fields? ["log", "compiler", "partition"] with
  | [log, compiler, partition] =>
      return {
        log := ← Toml.setting? LogSettings.ofToml? {} log
        compiler := ← Toml.setting? CompilerSettings.ofToml? {} compiler
        partition := ← Toml.setting? PartitionSettings.ofToml? {} partition }
  | _ => none

/-- A path below a directory. -/
def below (dir rest : String) : String :=
  if dir = "" || dir.toList.getLast? = some '/' then dir ++ rest else dir ++ "/" ++ rest

/-- A directory, with the home directory in the place of a tilde at its front. Separators behind
the tilde are dropped, so the path stays below the home directory. -/
def resolveDir (home : Option String) (dir : String) : Except SettingsError String :=
  match dir.toList with
  | '~' :: rest =>
      match home with
      | none => .error .noHome
      | some home =>
          .ok (below home (String.ofList (rest.dropWhile fun c => c == '/' || c == '\\')))
  | _ => .ok dir

/-- The settings in a document, given the home directory. -/
def load (home : Option String) (document : Option String) : Except SettingsError Settings :=
  match document with
  | none => .error .missing
  | some s =>
      match (Toml.parse? s).bind ofToml? with
      | none => .error .malformed
      | some settings => do
          let dir ← resolveDir home settings.log.dir
          return { settings with log := { settings.log with dir := dir } }

/-- One line of a table. -/
def line (name value : String) : String :=
  name ++ " = " ++ value ++ "\n"

/-- The document that holds the settings. -/
def save (s : Settings) : String :=
  "[log]\n" ++
    line "level" (Toml.writeString s.log.level) ++
    line "dir" (Toml.writeString s.log.dir) ++
    line "file" (Toml.writeString s.log.file) ++
    line "max_file_size" (Nat.repr s.log.maxFileSize) ++
    line "max_files" (Nat.repr s.log.maxFiles) ++
  "\n[compiler]\n" ++
    line "edge_field" (Toml.writeString s.compiler.edgeField) ++
    line "reverse_edge_field" (Toml.writeString s.compiler.reverseEdgeField) ++
    line "flat_properties" (Toml.writeStrings s.compiler.flatProperties) ++
    (match s.compiler.collection with
      | none => ""
      | some name => line "collection_name" (Toml.writeString name)) ++
  "\n[partition]\n" ++
    line "key" (Toml.writeString s.partition.key) ++
    line "parallelism" (Nat.repr s.partition.parallelism) ++
    line "worker_index_env" (Toml.writeString s.partition.workerIndexVariable)

end Settings

end DocWalk
