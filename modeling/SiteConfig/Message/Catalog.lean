import SiteConfig.Message.Template

/-!
Everything that a run tells its user.
-/

namespace SiteConfig

inductive TutorialNotice where
  | listHeader
  | listItem
  | listEmpty
  | addHint
  | updated
  | added
  | unknownTags
  | unknownCategory
  | taxonomyCategory
  | taxonomyTag
deriving DecidableEq, Repr

namespace TutorialNotice

def template : TutorialNotice → String
  | listHeader => "Tutorials in \x7bpath\x7d:"
  | listItem => "  [\x7bindex\x7d] \x7btitle\x7d"
  | listEmpty => "No tutorials configured in \x7bpath\x7d"
  | addHint => "💡 Add one with: wiki tutorial set --title <TITLE> --description <TEXT>"
  | updated => "Tutorial '\x7btitle\x7d' updated at plugin index \x7bindex\x7d"
  | added => "Tutorial '\x7btitle\x7d' added at plugin index \x7bindex\x7d"
  | unknownTags => "Unknown tag(s): \x7btags\x7d"
  | unknownCategory => "Unknown tag category: \x7bcategory\x7d"
  | taxonomyCategory => "\x7bcategory\x7d tags:"
  | taxonomyTag => "  \x7bvalue\x7d \x7blabel\x7d"

def all : List TutorialNotice :=
  [listHeader, listItem, listEmpty, addHint, updated, added, unknownTags, unknownCategory,
    taxonomyCategory, taxonomyTag]

def text (n : TutorialNotice) (values : List (String × String)) : String :=
  Message.fill n.template values

end TutorialNotice

inductive VersioningNotice where
  | pluginHeader
  | versionItem
  | noVersions
  | noPlugins
  | onlyInclude
  | versionSet
  | onlyIncludeSet
deriving DecidableEq, Repr

namespace VersioningNotice

def template : VersioningNotice → String
  | pluginHeader => "Docs plugin '\x7bid\x7d' (plugin index \x7bindex\x7d):"
  | versionItem => "  \x7bkey\x7d \x7blabel\x7d"
  | noVersions => "  (no versions configured)"
  | noPlugins => "No documentation plugins configured in \x7bpath\x7d"
  | onlyInclude => "  only including: \x7bversions\x7d"
  | versionSet => "Version '\x7bversion\x7d' of docs plugin '\x7bid\x7d' updated"
  | onlyIncludeSet => "Docs plugin '\x7bid\x7d' now only includes: \x7bversions\x7d"

def all : List VersioningNotice :=
  [pluginHeader, versionItem, noVersions, noPlugins, onlyInclude, versionSet, onlyIncludeSet]

def text (n : VersioningNotice) (values : List (String × String)) : String :=
  Message.fill n.template values

end VersioningNotice

inductive CommonNotice where
  | configWritten
  | dryRunHeader
  | fixHint
  | problemsFound
  | failed
deriving DecidableEq, Repr

namespace CommonNotice

def template : CommonNotice → String
  | configWritten => "Config file \x7bpath\x7d was updated"
  | dryRunHeader => "🔍 DRY RUN - \x7bpath\x7d would contain:"
  | fixHint => "💡 Fix the entries above in \x7bpath\x7d by hand if this tool refuses to edit them"
  | problemsFound => "Found \x7bcount\x7d problem(s) in \x7bpath\x7d"
  | failed => "Error: \x7berror\x7d"

def all : List CommonNotice :=
  [configWritten, dryRunHeader, fixHint, problemsFound, failed]

def text (n : CommonNotice) (values : List (String × String)) : String :=
  Message.fill n.template values

end CommonNotice

end SiteConfig
