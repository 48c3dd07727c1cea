import TickScript.FileTree
import TickScript.Text.Quoted

/-!
# What can be wrong with a project

One type holds every way in which a project cannot be loaded or resolved; causes nest, and so do
their texts.
-/

namespace TickScript

/-- The name of the project file. -/
def manifestName : Text := "baranium.toml"

/-- The variable of the environment that lists include directories. -/
def includeVariable : Text := "BARANIUM_INCLUDE"

/-- The variable of the environment that names a file with include directories. -/
def includeConfigVariable : Text := "BARANIUM_INCLUDE_CONFIG"

/-- What is wrong with a project. -/
inductive ProjectError where
  | file (error : FileError)
  | unreadableManifest (path : Text) (error : FileError)
  /-- A file is no document or its values have the wrong types. -/
  | malformed (path : Text)
  | badSource (name : Text) (error : FileError)
  | unreadableList (path : Text) (error : FileError)
  /-- A line of a list is longer than can be read. -/
  | longLine (path : Text)
  | includeConfig (cause : ProjectError)
  | includeList (cause : ProjectError)
  | readingLock (cause : ProjectError)
  | writingLock (error : FileError)
  | dependencyNotFound (name path : Text) (error : FileError)
  | dependencyWithoutPlace (name : Text)
  /-- Dependencies from repositories are fetched by other means. -/
  | dependencyNotFetched (url : Text)
  | resolving (name : Text) (cause : ProjectError)
  | noInput
deriving DecidableEq, Repr

namespace ProjectError

/-- The wording of a project error. -/
def message : ProjectError → Text
  | file error => error.message
  | unreadableManifest path error => "cannot read " ++ path ++ ": " ++ error.message
  | malformed path => "parse error in " ++ path
  | badSource name error => "source " ++ name ++ ": " ++ error.message
  | unreadableList path error => "reading " ++ path ++ ": " ++ error.message
  | longLine path => "reading " ++ path ++ ": bufio.Scanner: token too long"
  | includeConfig cause => includeConfigVariable ++ ": " ++ cause.message
  | includeList cause => "include list: " ++ cause.message
  | readingLock cause => "reading lock file: " ++ cause.message
  | writingLock error => "writing lock file: " ++ error.message
  | dependencyNotFound name path error =>
    "local dependency " ++ Text.quote name ++ " not found at " ++ path ++ ": " ++ error.message
  | dependencyWithoutPlace name =>
    "dependency " ++ Text.quote name ++ " has no git or path specified"
  | dependencyNotFetched url => "git clone --quiet " ++ url ++ ": not fetched"
  | resolving name cause => "resolving " ++ name ++ ": " ++ cause.message
  | noInput => "no input files and no " ++ manifestName ++ " found"

/-- Whether the innermost cause is a malformed document. -/
def isMalformed : ProjectError → Bool
  | malformed _ => true
  | includeConfig cause => cause.isMalformed
  | includeList cause => cause.isMalformed
  | readingLock cause => cause.isMalformed
  | resolving _ cause => cause.isMalformed
  | _ => false

end ProjectError

end TickScript
