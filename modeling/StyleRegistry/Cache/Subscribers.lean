/-! # Subscribers

A list of subscribers in the order in which they joined, under ids that count
up from one and are never used again. -/
namespace StyleRegistry

structure Subscribers (α : Type) where
  issued : Nat
  present : List (Nat × α)

namespace Subscribers

variable {α : Type}

def empty : Subscribers α := ⟨0, []⟩

/-- The new subscriber's id is the number of ids issued so far. -/
def add (subscribers : Subscribers α) (subscriber : α) : Subscribers α :=
  ⟨subscribers.issued + 1, subscribers.present ++ [(subscribers.issued + 1, subscriber)]⟩

def contains (subscribers : Subscribers α) (id : Nat) : Bool :=
  subscribers.present.any fun subscriber => subscriber.1 == id

def remove (subscribers : Subscribers α) (id : Nat) : Subscribers α :=
  { subscribers with present := subscribers.present.eraseP fun subscriber => subscriber.1 == id }

def get? (subscribers : Subscribers α) (index : Nat) : Option α :=
  subscribers.present[index]?.map (·.2)

def set (subscribers : Subscribers α) (index : Nat) (subscriber : α) : Subscribers α :=
  { subscribers with
    present := subscribers.present.modify index fun old => (old.1, subscriber) }

end Subscribers
end StyleRegistry
