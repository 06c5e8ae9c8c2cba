import Asyncify.Rule.Rename

/-! Rules for collections and the current user. -/
namespace Asyncify.Rule

/-- Any receiver counts as a collection. -/
def asyncApi : Sweep :=
  .renaming
    { id := "async-api"
      description :=
        "Convert collection findOne/insert/update/upsert/remove calls to awaited *Async calls"
      category := "collections" }
    (.ofNames ["findOne", "insert", "update", "upsert", "remove"])

def indexAsync : Sweep :=
  .renaming
    { id := "index-async"
      description := "Convert _ensureIndex() to await createIndexAsync()"
      category := "collections" }
    (.ofList [("_ensureIndex", "createIndexAsync")])

def userAsync : Sweep :=
  .renamingOn
    { id := "meteor-user-async"
      description := "Convert Meteor.user() to await Meteor.userAsync()"
      category := "meteor" }
    (.ofNames ["user"]) "Meteor"

end Asyncify.Rule
