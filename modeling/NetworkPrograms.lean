import NetworkPrograms.Foundations.Loop
import NetworkPrograms.Foundations.Memory
import NetworkPrograms.Framing.Robustness
import NetworkPrograms.Framing.Serve
import NetworkPrograms.Head.Writing
import NetworkPrograms.Head.Reading
import NetworkPrograms.Codec.Chat
import NetworkPrograms.Judge.Client
import NetworkPrograms.Judge.Transfer
import NetworkPrograms.Judge.Verdict
import NetworkPrograms.Judge.Ending
import NetworkPrograms.Reactor.Agreement
import NetworkPrograms.Reactor.Accounting
import NetworkPrograms.Reactor.Buffers
import NetworkPrograms.Muduo.Interest
import NetworkPrograms.Muduo.Iteration
import NetworkPrograms.Muduo.LoopThread
import NetworkPrograms.Muduo.TimerQueue
import NetworkPrograms.Select.Limits
import NetworkPrograms.Poll.Rounds
import NetworkPrograms.Epoll.EdgeTriggered
import NetworkPrograms.Epoll.LevelTriggered
import NetworkPrograms.Json.Receive
import NetworkPrograms.Threads.StockFactory
import NetworkPrograms.Threads.Mutexlock
import NetworkPrograms.Threads.Inventory
import NetworkPrograms.Protobuf.Helloworld
import NetworkPrograms.Sockets.Fork
import NetworkPrograms.Sockets.Threaded
import NetworkPrograms.Unp.Sigio
import NetworkPrograms.Unp.Prethreaded
import NetworkPrograms.Unp.Readline
import NetworkPrograms.Unp.StrCli
import NetworkPrograms.Unp.Exchange
import NetworkPrograms.Unp.InetNtop
