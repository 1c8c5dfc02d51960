import Logmark.Files.Tree

/-!
Directory trees on a machine that may refuse any request, for want of rights or of room. A request
that is refused is answered as one that cannot be carried out, and changes nothing.
-/
namespace Logmark

/-- A world, and for the requests to come whether each is refused. All that come after these are
carried out. -/
structure Machine where
  world : World
  refusals : List Bool

namespace Machine

/-- Makes a request, to which `refusal` is the answer if it is refused. -/
def request (refusal : α) (x : StateM World α) : StateM Machine α :=
  modifyGet fun s =>
    match s.refusals with
    | true :: refusals => (refusal, { s with refusals })
    | refusals =>
      let answered := x.run s.world
      (answered.1, ⟨answered.2, refusals.tail⟩)

instance : Files (StateM Machine) where
  isFile path := request false (Files.isFile path)
  isThere path := request false (Files.isThere path)
  read? path := request none (Files.read? path)
  canonical? path := request none (Files.canonical? path)
  makeDirectory path := request false (Files.makeDirectory path)
  write path content := request false (Files.write path content)
  replace path content := request false (Files.replace path content)

end Machine
end Logmark
