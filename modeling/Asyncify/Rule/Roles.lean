import Asyncify.Rule.Rename

/-! The package for user roles, which moved into the core. -/
namespace Asyncify.Rule

def oldRolesPackage : String := "meteor/alanning:roles"

def newRolesPackage : String := "meteor/roles"

def rolesMethods : List String :=
  ["createRole", "deleteRole", "renameRole", "addRolesToParent", "removeRolesFromParent",
    "addUsersToRoles", "removeUsersFromRoles", "setUserRoles", "userIsInRole", "getRolesForUser",
    "getUsersInRole", "getAllRoles", "isParentOf", "getScopesForUser"]

/-- The contents of a string literal, without the quotes. -/
def stringFragment? (p : Place) : Option Place :=
  if p.kind = .string then p.namedChildren.find? fun c =>
    c.node.symbol = "string_fragment" else none

/-- What an import or a call of `require` with one argument loads. -/
def loadedSource? (doc : Document) (p : Place) : Option Place :=
  if p.kind = .importStatement then p.child? .source
  else if p.kind = .call && doc.textOf? (p.child? .function) = "require" then
    match p.callArguments with
    | [x] => some x
    | _ => none
  else none

/-- The name of the old package where it is loaded. -/
def oldPackageName? (doc : Document) (p : Place) : Option Place :=
  ((loadedSource? doc p).bind stringFragment?).filter fun f => doc.textOf f.node = oldRolesPackage

def packageEdit (fragment : Place) : Edit :=
  ⟨fragment, .replace (.literal (.text newRolesPackage)),
    "Changed " ++ oldRolesPackage ++ " to " ++ newRolesPackage⟩

def rolesStep (r : Renaming) (p : Place) : Run Fault Step :=
  match oldPackageName? r.doc p with
  | some fragment => return ⟨[packageEdit fragment], []⟩
  | none => r.step p

def rolesMigration : Sweep where
  info := {
    id := "roles-migration"
    description :=
      "Migrate alanning:roles imports to meteor/roles and Roles.* calls to awaited *Async calls"
    category := "packages" }
  prepare pass := return {
    step := rolesStep {
      doc := pass.doc
      table := pass.methods (.ofNames rolesMethods)
      accepts := pass.doc.isIdentifier "Roles" } }

end Asyncify.Rule
