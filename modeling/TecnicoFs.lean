import TecnicoFs.Library.Outcome
import TecnicoFs.Library.Region
import TecnicoFs.Library.Machine
import TecnicoFs.Library.Loop
import TecnicoFs.Library.CString
import TecnicoFs.Library.Format
import TecnicoFs.Library.Scanning
import TecnicoFs.Library.Lines
import TecnicoFs.Library.Runs
import TecnicoFs.Library.Mutex
import TecnicoFs.Library.Service
import TecnicoFs.Library.Heap
import TecnicoFs.Library.LinkedList
import TecnicoFs.Fs.State
import TecnicoFs.Fs.Operations
import TecnicoFs.Fs.Directory
import TecnicoFs.Fs.Invariant
import TecnicoFs.Fs.Steps
import TecnicoFs.Fs.Exactness
import TecnicoFs.Fs.Preservation
import TecnicoFs.Fs.Initial
import TecnicoFs.Fs.Files
import TecnicoFs.Fs.World
import TecnicoFs.Fs.Ownership
import TecnicoFs.Fs.Catalogue
import TecnicoFs.Fs.Abstract
import TecnicoFs.Fs.Refinement
import TecnicoFs.Fs.Assertions
import TecnicoFs.Fs.WriteFrame
import TecnicoFs.Fs.Bounds
import TecnicoFs.Fs.Leaks
import TecnicoFs.Fs.Twins
import TecnicoFs.Fs.Confidentiality
import TecnicoFs.Fs.OpenFailures
import TecnicoFs.Fs.InitFailures
import TecnicoFs.Fs.Commutation
import TecnicoFs.Fs.Threads
import TecnicoFs.Broker.State
import TecnicoFs.Broker.Handlers
import TecnicoFs.Broker.BoxList
import TecnicoFs.Broker.ListOps
import TecnicoFs.Broker.Files
import TecnicoFs.Broker.Requests
import TecnicoFs.Broker.Registry
import TecnicoFs.Broker.Reachable
import TecnicoFs.Broker.Agreement
import TecnicoFs.Broker.Answers
import TecnicoFs.Broker.Resources
import TecnicoFs.Broker.Shutdown
import TecnicoFs.Broker.Publishing
import TecnicoFs.Broker.Calls
import TecnicoFs.Broker.Appends
import TecnicoFs.Broker.Sessions
import TecnicoFs.Broker.Splits
import TecnicoFs.Broker.Overflows
import TecnicoFs.Broker.Upkeep
import TecnicoFs.Broker.Blocks
import TecnicoFs.Broker.Freshness
import TecnicoFs.Broker.Subscribing
import TecnicoFs.Broker.Forwarding
import TecnicoFs.Broker.Hangups
import TecnicoFs.Broker.MainLoop
import TecnicoFs.Clients.Requests
import TecnicoFs.Clients.Manager
import TecnicoFs.Clients.Answers
import TecnicoFs.Clients.Listings
import TecnicoFs.Clients.Contents
import TecnicoFs.Clients.Subscriber
import TecnicoFs.Clients.Publisher
import TecnicoFs.System.Abstract
import TecnicoFs.System.Refinement
import TecnicoFs.System.Printing
import TecnicoFs.System.Subscription
import TecnicoFs.System.Jobs
import TecnicoFs.System.Service
import TecnicoFs.System.Delivery
